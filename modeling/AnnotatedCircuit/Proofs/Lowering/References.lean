import AnnotatedCircuit.Proofs.Lowering.Accounts

/-!
# References to anchors

A note that is attached behind a route carries the name of the anchor for that route in place of its
target, unless it brings a field of the same name along behind its target: that one is stored later
and stays (`Note.get?_attachedForm`). The wiring at the end leaves the anchors as they are and makes
no notes, so this holds in the design that a lowering ends with (`Design.lower_refers`).
-/

namespace AnnotatedCircuit

namespace Note

variable {n kept : Note} {t : Target} {key name : String} {anchor : Option String}
  {fields : List (String × Json)}

theorem get?_insert (n : Note) (key : String) (value : Json) (key' : String) :
    (n.insert key value).get? key' = if key = key' then some value else n.get? key' :=
  OrderedMap.find?_insert ..

/-- The fields behind the target. -/
def behindTarget (n : Note) : List (String × Json) :=
  (n.fields.entries.dropWhile (·.1 ≠ targetField)).tail

/-- The field that a note brings along in the name of the reference to an anchor, if that comes
behind the target. -/
def ownReference? (n : Note) : Option Json := OrderedMap.lookup nonlocalField n.behindTarget

/-- Fields that are kept come to those kept before, and replace them. -/
theorem get?_foldl_keep (nodup : (fields.map Prod.fst).Nodup)
    (other : targetField ∉ fields.map Prod.fst) :
    (fields.foldl (keep anchor) kept).get? key =
      (OrderedMap.lookup key fields).or (kept.get? key) := by
  induction fields generalizing kept with
  | nil => rfl
  | cons field fields ih =>
    obtain ⟨k, value⟩ := field
    obtain ⟨new, nodup⟩ := List.nodup_cons.mp nodup
    obtain ⟨hk, other⟩ := not_or.mp (mt List.mem_cons.mpr other)
    have first : keep anchor kept (k, value) = kept.insert k value := if_pos (Ne.symm hk)
    rw [List.foldl_cons, ih nodup other, first, get?_insert, OrderedMap.lookup]
    by_cases e : k = key
    · subst e
      rw [if_pos rfl, if_pos rfl, OrderedMap.lookup_eq_none new]
      rfl
    · rw [if_neg e, if_neg e]

/-- The target stands between other fields. -/
theorem exists_entries (h : n.fields.contains targetField = true) : ∃ before value,
    n.fields.entries = before ++ (targetField, value) :: n.behindTarget ∧
      targetField ∉ before.map Prod.fst ∧ targetField ∉ n.behindTarget.map Prod.fst ∧
      (before.map Prod.fst).Nodup ∧ (n.behindTarget.map Prod.fst).Nodup ∧
      ∀ key ∈ before.map Prod.fst, key ∉ n.behindTarget.map Prod.fst := by
  obtain ⟨⟨_, value⟩, hfield, rfl⟩ := List.mem_map.mp ((OrderedMap.contains_iff ..).mp h)
  obtain ⟨before, behind, split⟩ := List.append_of_mem hfield
  have nodup := n.fields.distinct
  rw [split, List.map_append, List.map_cons, List.nodup_append] at nodup
  obtain ⟨first, rest, apart⟩ := nodup
  obtain ⟨new, rest⟩ := List.nodup_cons.mp rest
  have absent : targetField ∉ before.map Prod.fst := fun h => apart _ h _ List.mem_cons_self rfl
  have behind_eq : n.behindTarget = behind := by
    rw [behindTarget, split, List.dropWhile_append_of_pos]
    · simp
    · intro field hfield
      have : field.1 ≠ targetField := fun e => absent (e ▸ List.mem_map_of_mem hfield)
      simpa using this
  rw [behind_eq]
  exact ⟨before, value, split, absent, new, first, rest, fun key hk hk' =>
    apart _ hk _ (List.mem_cons_of_mem _ hk') rfl⟩

/-- The fields of a note that is attached behind a route. -/
theorem get?_attachedForm (h : n.fields.contains targetField = true) :
    (n.attachedForm t (some name)).get? key =
      if t.fieldId ≠ 0 ∧ key = fieldIdField then some (Json.nat t.fieldId)
      else if key = targetField then none
      else if key = nonlocalField then some (n.ownReference?.getD (.str name))
      else n.get? key := by
  obtain ⟨before, value, split, absent, new, first, rest, apart⟩ := exists_entries h
  have kept : (n.fields.entries.foldl (keep (some name)) .empty).get? key =
      if key = targetField then none
      else if key = nonlocalField then some (n.ownReference?.getD (.str name))
      else n.get? key := by
    have reference : ∀ kept, keep (some name) kept (targetField, value) =
        kept.insert nonlocalField (.str name) := fun _ => by rw [keep, if_neg (not_not_intro rfl)]
    have early : (before.foldl (keep (some name)) .empty).get? key =
        OrderedMap.lookup key before := (get?_foldl_keep first absent).trans (Option.or_none)
    rw [split, List.foldl_append, List.foldl_cons, get?_foldl_keep rest new, reference, get?_insert,
      early]
    by_cases hkey : key = targetField
    · subst key
      rw [if_pos rfl, OrderedMap.lookup_eq_none new, if_neg (by decide),
        OrderedMap.lookup_eq_none absent]
      rfl
    · rw [if_neg hkey]
      by_cases href : key = nonlocalField
      · subst key
        rw [if_pos rfl, if_pos rfl, ownReference?]
        cases OrderedMap.lookup nonlocalField n.behindTarget <;> rfl
      · rw [if_neg href, if_neg (Ne.symm href), get?, OrderedMap.find?, split,
          OrderedMap.lookup_append, OrderedMap.lookup, if_neg (Ne.symm hkey)]
        -- A field stands on one side of the target only.
        cases hbefore : OrderedMap.lookup key before with
        | none => exact Option.or_none
        | some v =>
          have listed : key ∈ before.map Prod.fst :=
            (OrderedMap.lookup_isSome_iff ..).mp (by rw [hbefore]; rfl)
          rw [OrderedMap.lookup_eq_none (apart key listed)]
          rfl
  unfold attachedForm
  extract_lets kept'
  split
  · rename_i whole
    have : ¬(t.fieldId ≠ 0 ∧ key = fieldIdField) := fun h => h.1 whole
    rw [kept, if_neg this]
  · rename_i part
    rw [get?_insert, kept]
    by_cases e : fieldIdField = key
    · rw [if_pos e, if_pos ⟨part, e.symm⟩]
    · have : ¬(t.fieldId ≠ 0 ∧ key = fieldIdField) := fun h => e h.2.symm
      rw [if_neg e, if_neg this]

end Note

open Lowering

/-- A note that was attached behind a route refers to the anchor that the pool has for this very
route and module. -/
structure Refers (d : Design) (pool : AnchorPool) (d' : Design) (n : Note) (t : Target)
    (form : Note) : Prop where
  anchored : ∃ leaf a x, d.entityModule t.entity = .ok leaf ∧
    pool.anchors.find? (t.route, leaf) = some a ∧
    (∀ way, pool.anchors.find? way = some a → way = (t.route, leaf)) ∧
    d'.anchor? a = some x ∧ d.writeRoute t.route leaf = .ok (x.path, x.leaf) ∧
    form.get? Note.nonlocalField = some (n.ownReference?.getD (.str x.name))
  part : t.fieldId ≠ 0 → form.get? Note.fieldIdField = some (Json.nat t.fieldId)
  untargeted : form.get? Note.targetField = none
  /-- All other fields are those of the note. -/
  others : ∀ key, key ≠ Note.nonlocalField → key ≠ Note.targetField →
    ¬(t.fieldId ≠ 0 ∧ key = Note.fieldIdField) → form.get? key = n.get? key

namespace Design

variable {d d' : Design} {h : Hierarchy} {options : LowerOptions} {report : Report} {n : Note}
  {t : Target} {s : LowerState} {cs : List Settlement}

/-- A target behind a route was named by the target field. -/
theorem named_of_target? {scope : Scope} (ht : d.target? h n scope = some t)
    (far : t.isLocal = false) : d.named? h n = some t := by
  cases scope with
  | named => exact ht
  | circuit =>
    cases ht
    cases far
  | namedOrCircuit =>
    rw [target?] at ht
    split at ht
    · exact ht
    · cases ht
      cases far

theorem contains_of_target? {scope : Scope} (ht : d.target? h n scope = some t)
    (far : t.isLocal = false) : n.fields.contains Note.targetField = true := by
  obtain ⟨path, hpath, -⟩ := Option.bind_eq_some_iff.mp (named_of_target? ht far)
  obtain ⟨value, hvalue, -⟩ := Option.bind_eq_some_iff.mp hpath
  exact (OrderedMap.contains_iff ..).mpr
    ((OrderedMap.lookup_isSome_iff ..).mp (Option.isSome_of_eq_some hvalue))

/-- A note that was attached behind a route refers to the anchor for it. -/
theorem refers_of_settled {c : Settlement} (G : c.Grounded d h options)
    (R : Accounted d h cs (.start { d with pending := [] } h) s) (F : s.design.Framed d')
    (hc : c ∈ cs) (ht : c.result = .ok (.attach t)) (far : t.isLocal = false) :
    Refers d s.pool d' c.note t (c.note.attachedForm t (s.anchorOf? c.note t)) := by
  rw [Settlement.Grounded, ht] at G
  obtain ⟨_, _, -, htarget, rfl⟩ := G
  have given := contains_of_target? htarget far
  have needed : c.note.needsAnchor t = true := by rw [Note.needsAnchor, far, given]; rfl
  obtain ⟨leaf, a, x, hleaf, ha, hx, written, hname⟩ :=
    pooled_of_anchorOf? R.aligned R.pooled needed (R.anchored c hc t ht needed)
  have form : ∀ key, (c.note.attachedForm t (some x.name)).get? key = _ := fun _ =>
    Note.get?_attachedForm given
  have unlike : Note.nonlocalField ≠ Note.fieldIdField ∧ Note.targetField ≠ Note.fieldIdField ∧
      Note.nonlocalField ≠ Note.targetField := by decide
  rw [hname]
  refine ⟨⟨leaf, a, x, hleaf, ha, fun way hway => R.pooled.2 hway ha, ?_, written, ?_⟩,
    fun part => ?_, ?_, fun key hkey hkey' hkey'' => ?_⟩
  · rw [anchor?, F.anchors]
    exact hx
  · rw [form, if_neg fun h => unlike.1 h.2, if_neg unlike.2.2, if_pos rfl]
  · rw [form, if_pos ⟨part, rfl⟩]
  · rw [form, if_neg fun h => unlike.2.1 h.2, if_pos rfl]
  · rw [form, if_neg hkey'', if_neg hkey', if_neg hkey]

/-- What a lowering attaches behind a route refers to the anchor for it. -/
theorem lower_refers_of_ofDesign (hh : Hierarchy.ofDesign d = .ok h)
    (hl : d.lower options = .ok (report, d')) :
    ∃ s, Account d h options (d.settlements h options .empty d.pending) s report d' ∧
      (∀ c ∈ d.settlements h options .empty d.pending, ∀ t, c.result = .ok (.attach t) →
        t.isLocal = false →
        c.note.attachedForm t (s.anchorOf? c.note t) ∈ s.design.attachments.attached t.entity ∧
          Refers d s.pool d' c.note t (c.note.attachedForm t (s.anchorOf? c.note t))) ∧
      ∀ e, ∀ form ∈ d'.attachments.attached e, (∃ e', form ∈ d.attachments.attached e') ∨
        ∃ c ∈ d.settlements h options .empty d.pending, ∃ t, c.result = .ok (.attach t) ∧
          form = c.note.attachedForm t (s.anchorOf? c.note t) := by
  rcases account_of_ofDesign hh options with ⟨_, _, s, hlower, account⟩ | ⟨o, hlower, -⟩
  case inr =>
    rw [hl] at hlower
    cases hlower
  cases hl.symm.trans hlower
  refine ⟨s, account, ?_⟩
  by_cases idle : d.pending = []
  · have hd : (.ok (⟨{}, []⟩, { d with pending := [] }) : Except Abort (Report × Design)) =
        .ok (report, d') := by
      rw [← hl, lower, lowerWithin, idle]
      rfl
    cases hd
    rw [idle]
    exact ⟨fun _ hc => absurd hc List.not_mem_nil, fun e form hform => .inl ⟨e, hform⟩⟩
  · rcases lower_cases hh idle options with ⟨_, _, _, hdrain, R, -⟩ | ⟨o, hlower, -⟩
    case inr =>
      rw [hl] at hlower
      cases hlower
    cases hdrain.symm.trans account.drained
    have F : s.design.Framed d' := (finish_reports (account.wired idle)).1
    refine ⟨fun c hc t ht far => ⟨?_, refers_of_settled (account.grounded c hc) R F hc ht far⟩,
      fun e form hform => ?_⟩
    · rw [account.attached]
      exact List.mem_append_right _ (List.mem_filterMap.mpr
        ⟨c, hc, Settlement.formOn?_eq_some_iff.mpr ⟨t, ht, rfl, rfl⟩⟩)
    · obtain ⟨e', hform⟩ := F.noted hform
      rw [account.attached] at hform
      refine (List.mem_append.mp hform).imp (fun old => ⟨e', old⟩) fun new => ?_
      obtain ⟨c, hc, hform⟩ := List.mem_filterMap.mp new
      obtain ⟨t, ht, -, rfl⟩ := Settlement.formOn?_eq_some_iff.mp hform
      exact ⟨c, hc, t, ht, rfl⟩

/-- A note that a lowering attaches behind a route has the name of the anchor for this very route and
module, unless it brings a field of the same name along behind its target; it has the number of the
part it is about, if any, and no target. There are no other new notes in the design at the end. -/
theorem lower_refers (H : d.Built) (A : d.Acyclic) (hl : d.lower options = .ok (report, d')) :
    ∃ s, Account d d.hierarchy options (d.settlements d.hierarchy options .empty d.pending) s report
        d' ∧
      (∀ c ∈ d.settlements d.hierarchy options .empty d.pending, ∀ t,
        c.result = .ok (.attach t) → t.isLocal = false →
        c.note.attachedForm t (s.anchorOf? c.note t) ∈ s.design.attachments.attached t.entity ∧
          Refers d s.pool d' c.note t (c.note.attachedForm t (s.anchorOf? c.note t))) ∧
      ∀ e, ∀ form ∈ d'.attachments.attached e, (∃ e', form ∈ d.attachments.attached e') ∨
        ∃ c ∈ d.settlements d.hierarchy options .empty d.pending, ∃ t,
          c.result = .ok (.attach t) ∧ form = c.note.attachedForm t (s.anchorOf? c.note t) :=
  lower_refers_of_ofDesign (Hierarchy.ofDesign_of_acyclic H A) hl

/-- Three notes on a part of a wire, reached through the same instance. The second has a field in the
name of the reference before its target, the third has one behind it. -/
def ownReferences : Design := (Design.new "Top").edited
  [.newModule "A" .defined, .newWire ⟨1⟩ "w" (.vector (.uint (some 1)) 2),
    .instantiate ⟨0⟩ "a" ⟨1⟩,
    .setNotes [.ofClassAndTarget "circt.test" "Top|Top/a:A>w[1]",
      (((Note.ofClass "circt.test").insert Note.nonlocalField (.str "mine")).insert Note.targetField
        (.str "Top|Top/a:A>w[1]")),
      (Note.ofClassAndTarget "circt.test" "Top|Top/a:A>w[1]").insert Note.nonlocalField
        (.str "mine")] .empty]

theorem lower_refers_ownReferences : ownReferences.Built ∧ ownReferences.Acyclic ∧
    ∃ (report : Report) (d' : Design) (s : LowerState), ownReferences.lower {} = .ok (report, d') ∧
      (∃ c ∈ ownReferences.settlements ownReferences.hierarchy {} .empty ownReferences.pending,
        ∃ t, c.result = .ok (.attach t) ∧ t.isLocal = false ∧ t.fieldId = 2 ∧
          c.note.ownReference? = some (.str "mine") ∧
          Refers ownReferences s.pool d' c.note t (c.note.attachedForm t (s.anchorOf? c.note t))) ∧
      d'.anchors.map (fun x => (x.name, x.path, x.leaf)) = [("nla", [⟨"Top", "a"⟩], "A")] ∧
      (d'.attachments.attached (.op ⟨0⟩)).map (·.str? Note.nonlocalField) =
        [some "nla", some "nla", some "mine"] := by
  have H : ownReferences.Built := (Built.new "Top").edited _
  have A : ownReferences.Acyclic := by
    rw [← acyclic_hierarchy_iff H.coherent,
      ← Hierarchy.cycle?_eq_none_iff (closed_hierarchy H.coherent H.childrenKnown).enclosed]
    decide +kernel
  have run : (ownReferences.lower {}).map (fun r =>
      (r.2.anchors.map (fun x => (x.name, x.path, x.leaf)),
        (r.2.attachments.attached (.op ⟨0⟩)).map (·.str? Note.nonlocalField))) =
      .ok ([("nla", [⟨"Top", "a"⟩], "A")], [some "nla", some "nla", some "mine"]) := by
    decide +kernel
  cases hl : ownReferences.lower {} with
  | error e =>
    rw [hl] at run
    cases run
  | ok r =>
    obtain ⟨report, d'⟩ := r
    rw [hl] at run
    obtain ⟨anchors, references⟩ := Prod.mk.inj (Except.ok.inj run)
    obtain ⟨s, -, refers, -⟩ := lower_refers H A hl
    have third : (ownReferences.settlements ownReferences.hierarchy {} .empty
        ownReferences.pending)[2]?.map (fun c => (c.result, c.note.ownReference?)) =
        some (.ok (.attach ⟨.op ⟨0⟩, 2, [⟨1⟩]⟩), some (.str "mine")) := by
      rfl
    obtain ⟨c, hc, e⟩ := Option.map_eq_some_iff.mp third
    obtain ⟨result, own⟩ := Prod.mk.inj e
    have listed := List.mem_of_getElem? hc
    exact ⟨H, A, report, d', s, rfl, ⟨c, listed, _, result, rfl, rfl, own,
      (refers c listed _ result rfl).2⟩, anchors, references⟩

end Design

end AnnotatedCircuit
