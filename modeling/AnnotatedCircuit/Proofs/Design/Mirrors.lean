import AnnotatedCircuit.Proofs.Design.Reissue

/-!
# New ports and the results that mirror them

The ports of a module change when ports are entered and at no other time. Where a module has got
ports since an earlier design, the results of its instances behind the old ones have the types of
the new ports, as far as the instances have caught up (`Design.Mirrored`).
-/

namespace AnnotatedCircuit.Design

variable {d d₀ d' : Design} {m c : ModuleId} {o : OpId} {op : Op} {types ts : List SignalType}
  {v : ValueId} {t : SignalType} {lag : OpId → Nat}

theorem Reissued.portsOf (R : d.Reissued o op types d') (m : ModuleId) :
    d'.portsOf m = d.portsOf m := by
  simp only [Design.portsOf, R.module, Option.map_map]
  rfl

theorem map_nextPorts (d : Design) (ports : List PortDecl) :
    (d.nextPorts ports).map Port.toPortDecl = ports := by
  apply List.ext_getElem (by simp)
  intro i _ _
  simp [nextPorts]

theorem Fits.length_eq {ps : List Port} (F : d.Fits lag) (ho : d.op? o = some op)
    (hc : op.kind.child? = some c) (hps : d.portsOf c = some ps) :
    op.results.length + lag o = ps.length := by
  obtain ⟨x, hx, hl⟩ := F ho hc
  rw [Design.portsOf, hx, Option.map_some] at hps
  exact Option.some.inj hps ▸ hl

/-! ### The types of values -/

theorem Reissued.valueType (R : d.Reissued o op types d') (h : d.valueType v = .ok t) :
    d'.valueType v = .ok t := valueType_of_value (fun ha => (R.value ..).mpr (.inl ha)) h

theorem Reissued.valueType_new {i : Nat} (R : d.Reissued o op types d') (h : types[i]? = some t) :
    d'.valueType ⟨d.values.length + i⟩ = .ok t :=
  valueType_eq_ok_iff.mpr ⟨_, (R.value ..).mpr (.inr ⟨i, t, h, rfl, rfl⟩), rfl⟩

/-- The values of a list have the types of another one. -/
theorem valueType_getElem? {vs : List ValueId} {i : Nat}
    (h : List.Forall₂ (fun v t => d.valueType v = .ok t) vs ts) (hv : vs[i]? = some v)
    (ht : ts[i]? = some t) : d.valueType v = .ok t := by
  obtain ⟨hi, rfl⟩ := List.getElem?_eq_some_iff.mp hv
  obtain ⟨hi', rfl⟩ := List.getElem?_eq_some_iff.mp ht
  exact h.get hi hi'

/-! ### Mirrored ports -/

/-- The results of instances behind the ports that their module had in `d₀` have the types of the
ports that it has now. -/
def Mirrored (d₀ d : Design) : Prop :=
  ∀ ⦃o op c old ps i v p⦄, d.op? o = some op → op.kind.child? = some c →
    d₀.portsOf c = some old → d.portsOf c = some ps → old.length ≤ i → op.results[i]? = some v →
    ps[i]? = some p → d.valueType v = .ok p.type

/-- At first there are no such results. -/
theorem Fits.mirrored (F : d.Fits fun _ => 0) : d.Mirrored d := by
  intro o op c old ps i v p ho hc hold _ hi hv _
  have hl := F.length_eq ho hc hold
  have hlt := (List.getElem?_eq_some_iff.mp hv).1
  exact absurd hi (by omega)

/-- New ports have no results yet. -/
theorem Mirrored.enterPorts (M : d₀.Mirrored d) (F : d.Fits fun _ => 0) (m : ModuleId) (base : Nat)
    (ports : List PortDecl) : d₀.Mirrored (d.enterPorts m base ports) := by
  intro o op c old ps' i v p ho hc hold hps' hi hv hp
  have ho : d.op? o = some op := ho
  rw [portsOf_enterPorts] at hps'
  obtain ⟨ps, hps, rfl⟩ := Option.map_eq_some_iff.mp hps'
  have hlt : i < ps.length := by
    have hl := F.length_eq ho hc hps
    have := (List.getElem?_eq_some_iff.mp hv).1
    omega
  have hp' : ps[i]? = some p := by
    split at hp
    · rwa [List.getElem?_append_left hlt] at hp
    · exact hp
  exact valueType_of_value (extends_enterPorts ..).value (M ho hc hold hps hi hv hp')

theorem Mirrored.leaf (M : d₀.Mirrored d) (h : d.Leaf d') : d₀.Mirrored d' := by
  intro o op c old ps i v p ho hc hold hps hi hv hp
  rw [h.portsOf] at hps
  have live : d.op? o = some op := by
    cases h with
    | none => exact ho
    | op _ _ _ nameless =>
      rcases op?_addOp_cases ho with ⟨-, rfl⟩ | ho
      · rw [OpKind.child?_of_nameless nameless] at hc
        cases hc
      · exact ho
  exact valueType_of_value h.extension.value (M live hc hold hps hi hv hp)

theorem Mirrored.filled (M : d₀.Mirrored d) (h : d.Filled d') : d₀.Mirrored d' := by
  induction h with
  | refl => exact M
  | tail _ h ih => exact ih.leaf h

/-- A copy mirrors what its original did, and the ports that it was made for. -/
theorem Mirrored.reissued (M : d₀.Mirrored d) (R : d.Reissued o op types d')
    (ho : d.op? o = some op) (hc : op.kind.child? = some m) {base added : List Port}
    (hm : d.portsOf m = some (base ++ added)) (hlen : op.results.length = base.length)
    (htypes : types = ts ++ added.map (·.type))
    (hts : List.Forall₂ (fun v t => d.valueType v = .ok t) op.results ts) : d₀.Mirrored d' := by
  intro o' op' c old ps i v p ho' hc' hold hps hi hv hp
  rw [R.portsOf] at hps
  rcases R.op_cases ho' with ⟨rfl, rfl⟩ | ⟨q, hq, -, rfl⟩
  · obtain rfl : m = c := Option.some.inj (hc.symm.trans hc')
    obtain rfl := Option.some.inj (hm.symm.trans hps)
    obtain ⟨hi', rfl⟩ := getElem?_nextValues.mp hv
    apply R.valueType_new
    rw [htypes]
    rcases Nat.lt_or_ge i op.results.length with hlt | hge
    · have hts' : i < ts.length := hts.length_eq ▸ hlt
      have ht := valueType_getElem? hts (List.getElem?_eq_getElem hlt)
        (List.getElem?_eq_getElem hts')
      have hold' := M ho hc hold hm hi (List.getElem?_eq_getElem hlt) hp
      rw [List.getElem?_append_left hts', List.getElem?_eq_getElem hts']
      exact congrArg some (Except.ok.inj (ht.symm.trans hold'))
    · rw [List.getElem?_append_right (by omega)] at hp
      rw [List.getElem?_append_right (by rw [← hts.length_eq]; exact hge), ← hts.length_eq, hlen,
        List.getElem?_map, hp]
      rfl
  · have hc' : q.kind.child? = some c := by simpa [Op.rebind] using hc'
    exact R.valueType (M hq hc' hold hps hi hv hp)

end AnnotatedCircuit.Design
