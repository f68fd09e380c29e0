import AnnotatedCircuit.Proofs.Wiring.Soundness

/-!
# Values across replacements

The renames of a state lead from the values of the first design to those of the current one.
`Design.counterpart` finds the same value by place, without renames. `Moves` says what one step does
to all values, `Traced` that the two ways agree; every step keeps this.
-/

namespace AnnotatedCircuit

namespace Design

variable {d d' : Design} {o : OpId} {op : Op} {types : List SignalType} {v : ValueId}

/-- A value whose operation was removed. -/
def Dead (d : Design) (v : ValueId) : Prop :=
  ∃ t o i, d.value? v = some ⟨t, .result o i⟩ ∧ d.op? o = none

theorem Dead.valueModule (h : d.Dead v) (m : ModuleId) : d.valueModule v ≠ .ok m := by
  intro hm
  obtain ⟨t, o, i, hv, ho⟩ := h
  obtain ⟨t', ⟨i', hv'⟩ | ⟨o', i', op, hv', ho', -⟩⟩ := valueModule_eq_ok_iff.mp hm
  · rw [hv] at hv'
    cases hv'
  · rw [hv] at hv'
    cases hv'
    rw [ho] at ho'
    cases ho'

theorem Dead.mono (h : d.Dead v) (H : d.Coherent) (E : d.Extends d') : d'.Dead v := by
  obtain ⟨t, o, i, hv, ho⟩ := h
  exact ⟨t, o, i, E.value hv, (E.gone (H.result_origin hv).1 ho).2⟩

theorem Reissued.dead (R : d.Reissued o op types d') (H : d.Coherent) (h : d.Dead v) :
    d'.Dead v := by
  obtain ⟨t, p, i, hv, hp⟩ := h
  refine ⟨t, p, i, (R.value ..).mpr (.inl hv), ?_⟩
  rw [R.op, if_neg (ne_nextOp_of_lt (H.result_origin hv).1), hp]
  split <;> rfl

/-- The results of the instance are gone. -/
theorem Reissued.dead_result (R : d.Reissued o op types d') (H : d.Coherent)
    (ho : d.op? o = some op) (hv : v ∈ op.results) : d'.Dead v := by
  obtain ⟨i, hi⟩ := List.mem_iff_getElem?.mp hv
  obtain ⟨t, ht⟩ := H.result_value ho hi
  exact ⟨t, o, i, (R.value ..).mpr (.inl ht), by rw [R.op, if_neg (ne_nextOp ho), if_pos rfl]⟩

/-- The value of another design that has the same place: a port is its own counterpart, a result is
that of the operation in the same place of the same body. -/
def counterpart (d d' : Design) (v : ValueId) : Option ValueId := do
  match (← d.value? v).origin with
  | .port _ _ => return v
  | .result o i =>
    let op ← d.op? o
    let x ← d.module? op.parent
    let y ← d'.module? op.parent
    let op' ← d'.op? (← y.body[x.body.idxOf o]?)
    op'.results[i]?

/-- Every result has moved along `f` together with its operation, which kept its place. -/
structure Traced (d d' : Design) (f : ValueId → ValueId) : Prop where
  result : ∀ {o op x v} {i : Nat}, d.op? o = some op → d.module? op.parent = some x →
    op.results[i]? = some v → ∃ y o' op', d'.module? op.parent = some y ∧
      y.body[x.body.idxOf o]? = some o' ∧ d'.op? o' = some op' ∧ op'.results[i]? = some (f v)

theorem Traced.refl (H : d.Coherent) : d.Traced d id := by
  refine ⟨fun {o op x v i} ho hx hv => ?_⟩
  have hmem : o ∈ x.body := (H.mem_body hx).mpr ⟨op, ho, rfl⟩
  exact ⟨x, o, op, hx, List.getElem?_idxOf hmem, ho, hv⟩

theorem Traced.extends {d'' : Design} {f : ValueId → ValueId} (T : d.Traced d' f)
    (E : d'.Extends d'') : d.Traced d'' f := by
  refine ⟨fun ho hx hv => ?_⟩
  obtain ⟨y, o', op', hy, hb, ho', hv'⟩ := T.result ho hx hv
  obtain ⟨z, hz, -, -, hbody⟩ := E.module hy
  exact ⟨z, o', op', hz, getElem?_of_isPrefix hbody hb, E.op ho', hv'⟩

theorem Traced.reissued {d'' : Design} {f : ValueId → ValueId} (T : d.Traced d' f)
    (R : d'.Reissued o op types d'') (H : d'.Coherent) (ho : d'.op? o = some op)
    (hlen : op.results.length ≤ types.length) :
    d.Traced d'' (d'.resultRenaming op types ∘ f) := by
  refine ⟨fun {p q x v i} hp hx hv => ?_⟩
  obtain ⟨y, p', q', hy, hb, hp', hv'⟩ := T.result hp hx hv
  have hb' : (y.body.map (exchange o d'.nextOp))[x.body.idxOf p]? =
      some (exchange o d'.nextOp p') := by
    rw [List.getElem?_map, hb]
    rfl
  by_cases h : p' = o
  · subst h
    rw [ho] at hp'
    cases hp'
    rw [exchange_self] at hb'
    refine ⟨_, _, _, R.module_some hy, hb', R.op_copy, ?_⟩
    rw [Function.comp_apply, resultRenaming_result H ho hlen hv']
    exact getElem?_nextValues.mpr
      ⟨Nat.lt_of_lt_of_le (List.getElem?_eq_some_iff.mp hv').1 hlen, rfl⟩
  · rw [exchange_of_ne h] at hb'
    refine ⟨_, _, _, R.module_some hy, hb', R.op_other hp' h, ?_⟩
    rw [Function.comp_apply, resultRenaming_other H ho hlen hp' h hv']
    exact hv'

/-- If values have moved along `f`, then so has each to its counterpart. -/
theorem Traced.counterpart {f : ValueId → ValueId} {m : ModuleId} (T : d.Traced d' f)
    (H : d.Coherent) (ports : ∀ {v t m i}, d.value? v = some ⟨t, .port m i⟩ → f v = v)
    (hv : d.valueModule v = .ok m) : d.counterpart d' v = some (f v) := by
  obtain ⟨t, ⟨i, h⟩ | ⟨o, i, op, h, ho, rfl⟩⟩ := valueModule_eq_ok_iff.mp hv
  · simp [Design.counterpart, h, ports h]
  · obtain ⟨x, hx⟩ := H.parent_module ho
    obtain ⟨y, o', op', hy, hb, ho', hv'⟩ := T.result ho hx ((H.result_origin h).2 op ho)
    simp [Design.counterpart, h, ho, hx, hy, hb, ho', hv']

end Design

namespace Wiring.Realize

open Design

variable {d₀ : Design} {s s' : Realizing} {τ : ValueId → ValueId} {lag : OpId → Nat}
  {ports : List PlannedPort} {site : Site} {op : Op} {types : List SignalType} {v w : ValueId}
  {renames : OrderedMap ValueId ValueId} {pairs : List (ValueId × ValueId)}

/-! ### Following the renames -/

theorem follow_eq (renames : OrderedMap ValueId ValueId) (v : ValueId) :
    follow renames v = exchangeAll renames.entries v := by
  have : (fun (v : ValueId) (r : ValueId × ValueId) => if r.1 = v then r.2 else v) =
      fun v r => exchange r.1 r.2 v := by
    funext v r
    simp only [exchange, eq_comm]
  rw [follow, this]
  rfl

theorem follow_of_not_mem (h : v ∉ renames.keys) : follow renames v = v := by
  rw [follow_eq, exchangeAll_of_not_mem h]

theorem entries_renamedBy (nodup : (pairs.map Prod.fst).Nodup)
    (fresh : ∀ r ∈ pairs, r.1 ∉ renames.keys) :
    (renamedBy renames pairs).entries = renames.entries ++ pairs := by
  unfold renamedBy
  induction pairs generalizing renames with
  | nil => exact (List.append_nil _).symm
  | cons r pairs ih =>
    obtain ⟨hr, fresh⟩ := List.forall_mem_cons.mp fresh
    obtain ⟨hnot, nodup⟩ := List.nodup_cons.mp nodup
    have hins := renames.entries_insert hr r.2
    rw [List.foldl_cons, ih nodup, hins, List.append_assoc]
    · rfl
    · intro q hq hm
      rw [OrderedMap.keys, hins, List.map_append, List.mem_append] at hm
      rcases hm with hm | hm
      · exact fresh q hq hm
      · have e : q.1 = r.1 := by simpa using hm
        exact hnot (e ▸ List.mem_map_of_mem hq)

/-! ### What a step does to the values -/

/-- Values move along `τ`. They stay in their modules, and they go on driving each other. -/
structure Moves (τ : ValueId → ValueId) (s s' : Realizing) : Prop where
  follow : ∀ v, follow s'.renames v = τ (follow s.renames v)
  valueModule : ∀ {v m}, s.design.valueModule v = .ok m → s'.design.valueModule (τ v) = .ok m
  drives : ∀ {v w}, s.design.Drives v w → s'.design.Drives (τ v) (τ w)

theorem moves_of_extends (E : s.design.Extends s'.design) (hr : s'.renames = s.renames) :
    Moves id s s' where
  follow v := by rw [hr]; rfl
  valueModule := E.valueModule
  drives := E.drives

/-- Renames lead away from removed results, and to where the values of the first design are now. -/
structure Kept (d₀ : Design) (s : Realizing) : Prop where
  dead : ∀ k ∈ s.renames.keys, s.design.Dead k
  traced : d₀.Traced s.design (follow s.renames)
  ports : ∀ {v t m i}, d₀.value? v = some ⟨t, .port m i⟩ → s.design.value? v = some ⟨t, .port m i⟩

theorem Kept.follow_live {m : ModuleId} (K : Kept d₀ s) (h : s.design.valueModule v = .ok m) :
    Realize.follow s.renames v = v :=
  follow_of_not_mem fun hk => (K.dead v hk).valueModule m h

theorem Kept.counterpart {m : ModuleId} (K : Kept d₀ s) (H : d₀.Coherent)
    (hv : d₀.valueModule v = .ok m) :
    d₀.counterpart s.design v = some (Realize.follow s.renames v) :=
  K.traced.counterpart H (fun h => K.follow_live
    (valueModule_eq_ok_iff.mpr ⟨_, .inl ⟨_, K.ports h⟩⟩)) hv

theorem Kept.extends (K : Kept d₀ s) (H : s.design.Coherent) (E : s.design.Extends s'.design)
    (hr : s'.renames = s.renames) : Kept d₀ s' where
  dead k hk := (K.dead k (hr ▸ hk)).mono H E
  traced := hr ▸ K.traced.extends E
  ports h := E.value (K.ports h)

section

variable (R : Reissuing ports site op types s s') (S : s.design.Sound lag) (K : Kept d₀ s)
include R S K

theorem Reissuing.entries :
    s'.renames.entries = s.renames.entries ++ s.design.resultPairs op types := by
  have hlen : op.results.length ≤ types.length := R.length ▸ Nat.le_add_right ..
  rw [R.renames]
  refine entries_renamedBy ?_ fun r hr hk => ?_
  · rw [map_fst_resultPairs hlen]
    exact S.coherent.nodup_results R.live
  · exact (K.dead r.1 hk).valueModule _
      (valueModule_result S.coherent R.live (List.of_mem_zip hr).1)

theorem Reissuing.moves : Moves (s.design.resultRenaming op types) s s' where
  follow v := by
    rw [follow_eq, follow_eq, R.entries S K, exchangeAll_append]
    rfl
  valueModule := R.design.valueModule S.coherent R.live (R.length ▸ Nat.le_add_right ..)
  drives := R.design.drives S.coherent R.live R.child (R.length ▸ Nat.le_add_right ..)

theorem Reissuing.kept : Kept d₀ s' where
  dead k hk := by
    rw [OrderedMap.keys, R.entries S K, List.map_append,
      map_fst_resultPairs (R.length ▸ Nat.le_add_right ..), List.mem_append] at hk
    rcases hk with hk | hk
    · exact R.design.dead S.coherent (K.dead k hk)
    · exact R.design.dead_result S.coherent R.live hk
  traced := by
    have : Realize.follow s'.renames =
        s.design.resultRenaming op types ∘ Realize.follow s.renames :=
      funext (R.moves S K).follow
    rw [this]
    exact K.traced.reissued R.design S.coherent R.live (R.length ▸ Nat.le_add_right ..)
  ports h := (R.design.value ..).mpr (.inl (K.ports h))

end

end Wiring.Realize

end AnnotatedCircuit
