import AnnotatedCircuit.Proofs.Design.History
import AnnotatedCircuit.Proofs.Design.Stored
import AnnotatedCircuit.Proofs.Lowering.Verdict
import AnnotatedCircuit.Proofs.NameSupply

/-!
# Entering verdicts

A note is attached without its target; in place of that it names the anchor for the way to the
target, if there is one (`Note.attachedForm`). Anchors are shared: a pool holds those made so far
(`Pooled`), and a request adds one at most (`anchorName_cases`). What a verdict changes is said once
(`Entered`), and entering one that was vetted fails only when the names of anchors run out
(`enter_cases`).
-/

namespace AnnotatedCircuit

namespace Note

/-- Keep a field. The target is replaced by the name of an anchor, if one is given. -/
def keep (anchor : Option String) (kept : Note) : String × Json → Note
  | (key, value) =>
    if key ≠ targetField then kept.insert key value
    else match anchor with
      | none => kept
      | some name => kept.insert nonlocalField (.str name)

/-- A note as it is attached to a target, with the name of the anchor for the way there. -/
def attachedForm (n : Note) (t : Target) (anchor : Option String) : Note :=
  let kept := n.fields.entries.foldl (keep anchor) .empty
  if t.fieldId = 0 then kept else kept.insert fieldIdField (Json.nat t.fieldId)

end Note

namespace Design

variable {d : Design} {hint name leaf : String} {path : List PathStep} {symbols : NameSupply}

/-- A design with one anchor more. -/
def withAnchor (d : Design) (symbols : NameSupply) (name : String) (path : List PathStep)
    (leaf : String) : Design :=
  { d with symbols, anchors := d.anchors ++ [⟨⟨d.anchors.length⟩, name, path, leaf⟩] }

theorem newAnchor_of_ok (h : d.symbols.fresh hint = .ok (name, symbols)) :
    d.newAnchor hint path leaf =
      .ok (⟨d.anchors.length⟩, d.withAnchor symbols name path leaf) := by
  rw [newAnchor, h]
  rfl

theorem newAnchor_of_error {o : Overflow} (h : d.symbols.fresh hint = .error o) :
    d.newAnchor hint path leaf = .error o := by
  rw [newAnchor, h]
  rfl

theorem anchor?_withAnchor_new :
    (d.withAnchor symbols name path leaf).anchor? ⟨d.anchors.length⟩ =
      some ⟨⟨d.anchors.length⟩, name, path, leaf⟩ := by
  simp [anchor?, withAnchor]

/-- A new anchor has the number of those before it. -/
theorem Numbered.withAnchor (N : d.Numbered) (h : d.symbols.fresh hint = .ok (name, symbols)) :
    (d.withAnchor symbols name path leaf).Numbered where
  anchors room a ha := by
    have room' : d.anchors.length + 1 ≤ Word.limit := by simpa [Design.withAnchor] using room
    rcases List.mem_append.mp ha with ha | ha
    · exact N.anchors (Nat.le_of_succ_le room') a ha
    · cases List.mem_singleton.mp ha
      exact room'
  symbols := N.symbols.fresh h

theorem Built.withAnchor (H : d.Built) (h : d.symbols.fresh hint = .ok (name, symbols)) :
    (d.withAnchor symbols name path leaf).Built := by
  have call := H.call (.newAnchor hint path leaf)
  dsimp only [Edit.Call.run] at call
  rwa [newAnchor_of_ok h] at call

theorem anchor?_withAnchor {a : AnchorId} {x : Anchor} (h : d.anchor? a = some x) :
    (d.withAnchor symbols name path leaf).anchor? a = some x := by
  rw [anchor?, withAnchor, List.getElem?_append_left (List.getElem?_eq_some_iff.mp h).1]
  exact h

end Design

namespace AnchorPool

variable {d : Design} {pool : AnchorPool} {route : List OpId} {leaf : ModuleId} {name : String}

/-- The hint for the names of anchors. -/
def hint : String := "nla"

theorem ask_apply {α : Type} (question : Design → Except DesignError α) (pool : AnchorPool)
    (d : Design) : ask question (pool, d) =
      ((question d).mapError fun e => Halt.failure (.design e)).leaving (pool, d) := by
  change (Attempt.ofDesign (question d) : Attempt (AnchorPool × Design) α) (pool, d) = _
  cases question d <;> rfl

theorem internRoute_of_some {a : AnchorId} (h : pool.anchors.find? (route, leaf) = some a) :
    internRoute route leaf (pool, d) = .ok a ({ pool with reused := pool.reused + 1 }, d) := by
  refine (EStateM.bind_of_ok rfl).trans ?_
  rw [h]
  rfl

/-- A new route has to be written down and then to be named. -/
theorem internRoute_of_none (h : pool.anchors.find? (route, leaf) = none) :
    internRoute route leaf (pool, d) = match d.writeRoute route leaf with
      | .error e => .error (.failure (.design e)) (pool, d)
      | .ok (path, leafName) => match d.newAnchor hint path leafName with
        | .error o => .error (.overflow o) (pool, d)
        | .ok (a, d') =>
          .ok a ({ pool with anchors := pool.anchors.insert (route, leaf) a }, d') := by
  refine (EStateM.bind_of_ok rfl).trans ?_
  rw [h, Design.writeRoute]
  dsimp only
  have asked := ask_apply (fun d => route.mapM (step d)) pool d
  cases hroute : route.mapM (step d) with
  | error e =>
    rw [hroute] at asked
    exact EStateM.bind_of_error asked
  | ok path =>
    rw [hroute] at asked
    refine (EStateM.bind_of_ok asked).trans ?_
    have asked := ask_apply (·.moduleName leaf) pool d
    cases hleaf : d.moduleName leaf with
    | error e =>
      rw [hleaf] at asked
      exact EStateM.bind_of_error asked
    | ok leafName =>
      rw [hleaf] at asked
      refine (EStateM.bind_of_ok asked).trans ((EStateM.bind_of_ok rfl).trans ?_)
      change (Attempt.ofChecked (d.newAnchor hint path leafName) >>= _ :
        Attempt (AnchorPool × Design) AnchorId) (pool, d) =
      match d.newAnchor hint path leafName with
          | .error o => _
          | .ok (a, d') => _
      cases d.newAnchor hint path leafName <;> rfl

/-- A route that cannot be written down gets no anchor. -/
theorem internRoute_of_unwritten {e : DesignError} (h : pool.anchors.find? (route, leaf) = none)
    (hw : d.writeRoute route leaf = .error e) :
    internRoute route leaf (pool, d) = .error (.failure (.design e)) (pool, d) := by
  rw [internRoute_of_none h, hw]

theorem internRoute_of_written {path : List PathStep} {leafName : String}
    (h : pool.anchors.find? (route, leaf) = none)
    (hw : d.writeRoute route leaf = .ok (path, leafName)) :
    internRoute route leaf (pool, d) = match d.symbols.fresh hint with
      | .error o => .error (.overflow o) (pool, d)
      | .ok (name, symbols) => .ok ⟨d.anchors.length⟩
          ({ pool with anchors := pool.anchors.insert (route, leaf) ⟨d.anchors.length⟩ },
            d.withAnchor symbols name path leafName) := by
  rw [internRoute_of_none h, hw]
  dsimp only
  cases hf : d.symbols.fresh hint with
  | error o => rw [Design.newAnchor_of_error hf]
  | ok r => rw [Design.newAnchor_of_ok hf]

/-- Pool and design are changed only when nothing is left that can fail. -/
theorem unchanged_of_error {s s' : AnchorPool × Design} {e : Halt}
    (h : internRoute route leaf s = .error e s') : s' = s := by
  obtain ⟨pool, d⟩ := s
  cases found : pool.anchors.find? (route, leaf) with
  | some a =>
    rw [internRoute_of_some found] at h
    cases h
  | none =>
    rw [internRoute_of_none found] at h
    split at h
    · cases h
      rfl
    · split at h
      · cases h
        rfl
      · cases h

end AnchorPool

/-- The name of the anchor made for a route down to a leaf. -/
def LowerState.anchorNamed? (s : LowerState) (route : List OpId) (leaf : ModuleId) :
    Option String :=
  (s.pool.anchors.find? (route, leaf)).bind fun a => (s.design.anchor? a).map Anchor.name

namespace Lowering

variable {d : Design} {h : Hierarchy} {s s' s'' : LowerState} {n : Note} {t : Target} {v : Verdict}
  {route : List OpId} {leaf : ModuleId} {name : String} {o : Overflow}

/-! ### The pool of anchors -/

theorem Aligned.writeRoute (A : Aligned d h s) (route : List OpId) (leaf : ModuleId) :
    s.design.writeRoute route leaf = d.writeRoute route leaf := by
  obtain ⟨_, _, _, _, hd⟩ := A.design
  rw [hd]
  rfl

/-- Every anchor of the pool is one of the design, and describes its route; no two routes share
one. -/
def Pooled (d : Design) (s : LowerState) : Prop :=
  (∀ ⦃route leaf a⦄, s.pool.anchors.find? (route, leaf) = some a →
    ∃ x, s.design.anchor? a = some x ∧ d.writeRoute route leaf = .ok (x.path, x.leaf)) ∧
  ∀ ⦃way way' a⦄, s.pool.anchors.find? way = some a → s.pool.anchors.find? way' = some a →
    way = way'

theorem Pooled.start (d d' : Design) (h : Hierarchy) : Pooled d (.start d' h) := ⟨nofun, nofun⟩

/-- An anchor of the pool has a number below the next one. -/
theorem Pooled.lt (P : Pooled d s) {way : List OpId × ModuleId} {a : AnchorId}
    (ha : s.pool.anchors.find? way = some a) : a.index < s.design.anchors.length := by
  obtain ⟨_, hx, -⟩ := P.1 ha
  exact (List.getElem?_eq_some_iff.mp hx).1

/-- A state has the anchors of an earlier one and, behind them, new ones that are as `P` says. -/
def Gained (P : Anchor → Prop) (s s' : LowerState) : Prop :=
  ∃ added, s'.design.anchors = s.design.anchors ++ added ∧ ∀ x ∈ added, P x

namespace Gained

variable {P Q : Anchor → Prop}

theorem none (same : s'.design.anchors = s.design.anchors) : Gained P s s' :=
  ⟨[], by rw [same, List.append_nil], nofun⟩

theorem mono (G : Gained P s s') (h : ∀ x, P x → Q x) : Gained Q s s' :=
  let ⟨added, anchors, hP⟩ := G
  ⟨added, anchors, fun x hx => h x (hP x hx)⟩

theorem trans (G : Gained P s s') (G' : Gained P s' s'') : Gained P s s'' := by
  obtain ⟨added, anchors, hP⟩ := G
  obtain ⟨added', anchors', hP'⟩ := G'
  refine ⟨added ++ added', by rw [anchors', anchors, List.append_assoc], fun x hx => ?_⟩
  exact (List.mem_append.mp hx).elim (hP x) (hP' x)

end Gained

/-- The way from one state to another in which the anchor of a route was asked for. -/
structure Interned (d : Design) (route : List OpId) (leaf : ModuleId) (name : String)
    (s s' : LowerState) : Prop where
  frame : ∃ anchors symbols pool,
    s' = { s with pool, design := { s.design with anchors, symbols } }
  named : s'.anchorNamed? route leaf = some name
  kept : ∀ {route leaf name}, s.anchorNamed? route leaf = some name →
    s'.anchorNamed? route leaf = some name
  pooled : Pooled d s'
  built : s.design.Built → s'.design.Built
  numbered : s.design.Numbered → s'.design.Numbered
  room : s.design.symbols.room AnchorPool.hint ≤ s'.design.symbols.room AnchorPool.hint + 1
  gained : Gained (fun x => d.writeRoute route leaf = .ok (x.path, x.leaf)) s s'

/-- The same anchor again. -/
theorem Interned.again {a : AnchorId} {x : Anchor} (P : Pooled d s)
    (ha : s.pool.anchors.find? (route, leaf) = some a) (hx : s.design.anchor? a = some x) :
    Interned d route leaf x.name s
      { s with pool := { s.pool with reused := s.pool.reused + 1 } } where
  frame := ⟨_, _, _, rfl⟩
  named := by
    change (s.pool.anchors.find? (route, leaf)).bind _ = _
    rw [ha, Option.bind_some, hx]
    rfl
  kept := id
  pooled := P
  built := id
  numbered := id
  room := Nat.le_succ _
  gained := .none rfl

/-- A new anchor, at the end of the table. -/
theorem Interned.first {path : List PathStep} {leafName : String} {symbols : NameSupply}
    (P : Pooled d s) (new : s.pool.anchors.find? (route, leaf) = none)
    (written : d.writeRoute route leaf = .ok (path, leafName))
    (fresh : s.design.symbols.fresh AnchorPool.hint = .ok (name, symbols)) :
    Interned d route leaf name s
      { s with
        pool := { s.pool with
          anchors := s.pool.anchors.insert (route, leaf) ⟨s.design.anchors.length⟩ }
        design := s.design.withAnchor symbols name path leafName } where
  frame := ⟨_, _, _, rfl⟩
  named := by
    rw [LowerState.anchorNamed?, OrderedMap.find?_insert, if_pos rfl, Option.bind_some,
      Design.anchor?_withAnchor_new]
    rfl
  kept {route' leaf' name'} h := by
    obtain ⟨a, ha, hname⟩ := Option.bind_eq_some_iff.mp h
    obtain ⟨x, hx, rfl⟩ := Option.map_eq_some_iff.mp hname
    have other : (route, leaf) ≠ (route', leaf') := by
      intro e
      rw [← e, new] at ha
      cases ha
    rw [LowerState.anchorNamed?, OrderedMap.find?_insert, if_neg other, ha, Option.bind_some,
      Design.anchor?_withAnchor hx]
    rfl
  pooled := by
    refine ⟨fun route' leaf' a ha => ?_, fun way way' a ha ha' => ?_⟩
    · dsimp only at ha
      rw [OrderedMap.find?_insert] at ha
      split at ha
      · rename_i e
        cases e
        cases ha
        exact ⟨_, Design.anchor?_withAnchor_new, written⟩
      · obtain ⟨x, hx, hwritten⟩ := P.1 ha
        exact ⟨x, Design.anchor?_withAnchor hx, hwritten⟩
    · dsimp only at ha ha'
      rw [OrderedMap.find?_insert] at ha ha'
      split at ha <;> split at ha'
      · exact Eq.trans (Eq.symm ‹_›) ‹_›
      · cases ha
        exact absurd (P.lt ha') (Nat.lt_irrefl _)
      · cases ha'
        exact absurd (P.lt ha) (Nat.lt_irrefl _)
      · exact P.2 ha ha'
  built H := H.withAnchor fresh
  numbered N := N.withAnchor fresh
  room := (NameSupply.room_of_fresh fresh).le
  gained := ⟨_, rfl, fun _ hx => List.mem_singleton.mp hx ▸ written⟩

/-- With an anchor, its name is looked up in the design that has it. -/
theorem anchorName_of_ok {a : AnchorId} {pool : AnchorPool} {design : Design}
    (h : AnchorPool.internRoute route leaf (s.pool, s.design) = .ok a (pool, design)) :
    anchorName route leaf s = (match design.anchor? a with
      | some anchor => pure anchor.name
      | none => .fail (.design (.inconsistent (.unregisteredAnchor a))) : Lowering String)
        { s with pool, design } :=
  Eq.trans
    (EStateM.bind_of_ok (Attempt.within_of_ok (fun s : LowerState => (s.pool, s.design)) _ h))
    (EStateM.bind_of_ok rfl)

theorem anchorName_of_error {e : Halt} {pool : AnchorPool} {design : Design}
    (h : AnchorPool.internRoute route leaf (s.pool, s.design) = .error e (pool, design)) :
    anchorName route leaf s = .error e { s with pool, design } :=
  EStateM.bind_of_error (Attempt.within_of_error (fun s : LowerState => (s.pool, s.design)) _ h)

/-- The anchor of a route is found or made, unless there is no name for it. -/
theorem anchorName_cases (A : Aligned d h s) (P : Pooled d s) {path : List PathStep}
    {leafName : String} (hw : d.writeRoute route leaf = .ok (path, leafName)) :
    (∃ name s', anchorName route leaf s = .ok name s' ∧ Interned d route leaf name s s') ∨
    ∃ o, anchorName route leaf s = .error (.overflow o) s ∧
      s.design.symbols.room AnchorPool.hint = 0 := by
  have hw' : s.design.writeRoute route leaf = .ok (path, leafName) := (A.writeRoute ..).trans hw
  cases ha : s.pool.anchors.find? (route, leaf) with
  | some a =>
    obtain ⟨x, hx, -⟩ := P.1 ha
    refine .inl ⟨x.name, _, (anchorName_of_ok (AnchorPool.internRoute_of_some ha)).trans ?_,
      .again P ha hx⟩
    rw [hx]
    rfl
  | none =>
    have interned := AnchorPool.internRoute_of_written ha hw'
    cases hf : s.design.symbols.fresh AnchorPool.hint with
    | error o =>
      rw [hf] at interned
      exact .inr ⟨o, anchorName_of_error interned, NameSupply.room_of_error hf⟩
    | ok r =>
      rw [hf] at interned
      refine .inl ⟨r.1, _, (anchorName_of_ok interned).trans ?_, .first P ha hw hf⟩
      rw [Design.anchor?_withAnchor_new]
      rfl

/-- A route that cannot be written down gets no anchor. -/
theorem anchorName_of_unwritten (A : Aligned d h s) (P : Pooled d s) {e : DesignError}
    (hw : d.writeRoute route leaf = .error e) :
    anchorName route leaf s = .error (.failure (.design e)) s := by
  have new : s.pool.anchors.find? (route, leaf) = none := by
    refine Option.eq_none_iff_forall_ne_some.mpr fun a ha => ?_
    obtain ⟨x, -, hx⟩ := P.1 ha
    cases hw.symm.trans hx
  exact anchorName_of_error (AnchorPool.internRoute_of_unwritten new ((A.writeRoute ..).trans hw))

/-! ### Attached forms -/

/-- The anchor for the way to a target. -/
def anchorFor (t : Target) : Lowering String := do
  anchorName t.route (← ask (·.entityModule t.entity))

theorem attachedFields_of_no_anchor {fields : List (String × Json)} (kept : Note)
    (h : t.isLocal = true ∨ Note.targetField ∉ fields.map Prod.fst) :
    attachedFields t fields kept = pure (fields.foldl (Note.keep none) kept) := by
  induction fields generalizing kept with
  | nil => rfl
  | cons field fields ih =>
    obtain ⟨key, value⟩ := field
    have rest := fun kept => ih kept (h.imp_right fun h hm => h (List.mem_cons_of_mem _ hm))
    rw [attachedFields, List.foldl_cons, Note.keep]
    by_cases hkey : key = Note.targetField
    · have hlocal := h.resolve_right fun h => h (hkey ▸ List.mem_cons_self)
      rw [if_neg (not_not_intro hkey), if_neg (not_not_intro hkey), if_pos hlocal]
      exact rest kept
    · rw [if_pos hkey, if_pos hkey]
      exact rest _

/-- The one field of the target makes way for the name of the anchor. -/
theorem attachedFields_of_anchor {fields : List (String × Json)} (kept : Note)
    (hlocal : t.isLocal = false) (nodup : (fields.map Prod.fst).Nodup)
    (h : Note.targetField ∈ fields.map Prod.fst) :
    attachedFields t fields kept =
      anchorFor t >>= fun name => pure (fields.foldl (Note.keep (some name)) kept) := by
  have other : ∀ {fields : List (String × Json)} {kept : Note} (name : String),
      Note.targetField ∉ fields.map Prod.fst →
      fields.foldl (Note.keep none) kept = fields.foldl (Note.keep (some name)) kept := by
    intro fields kept name h
    induction fields generalizing kept with
    | nil => rfl
    | cons field fields ih =>
      rw [List.map_cons, List.mem_cons, not_or] at h
      rw [List.foldl_cons, List.foldl_cons, ih h.2]
      simp only [Note.keep, if_pos (Ne.symm h.1)]
  induction fields generalizing kept with
  | nil => cases h
  | cons field fields ih =>
    obtain ⟨key, value⟩ := field
    obtain ⟨hnew, nodup⟩ := List.nodup_cons.mp nodup
    rw [attachedFields]
    by_cases hkey : key = Note.targetField
    · subst hkey
      rw [if_neg (not_not_intro rfl), if_neg (by simp [hlocal]), anchorFor, bind_assoc]
      refine bind_congr fun leaf => bind_congr fun name => ?_
      rw [attachedFields_of_no_anchor _ (.inr hnew), other name hnew]
      rfl
    · rw [if_pos hkey, ih _ nodup ((List.mem_cons.mp h).resolve_left (Ne.symm hkey))]
      refine bind_congr fun name => ?_
      rw [List.foldl_cons, Note.keep, if_pos hkey]

theorem attachedFields_eq (t : Target) (n : Note) :
    attachedFields t n.fields.entries .empty =
      if n.needsAnchor t then
        anchorFor t >>= fun name => pure (n.fields.entries.foldl (Note.keep (some name)) .empty)
      else pure (n.fields.entries.foldl (Note.keep none) .empty) := by
  split
  · rename_i needed
    rw [Note.needsAnchor, Bool.and_eq_true, Bool.not_eq_true'] at needed
    exact attachedFields_of_anchor _ needed.1 n.fields.distinct
      ((OrderedMap.contains_iff ..).mp needed.2)
  · rename_i needless
    rw [Note.needsAnchor, Bool.and_eq_true, Bool.not_eq_true', not_and_or, Bool.not_eq_false]
      at needless
    exact attachedFields_of_no_anchor _
      (needless.imp_right fun h hm => h ((OrderedMap.contains_iff ..).mpr hm))

end Lowering

/-- The name of the anchor that a note attached to a target refers to. -/
def LowerState.anchorOf? (s : LowerState) (n : Note) (t : Target) : Option String :=
  if n.needsAnchor t then
    match s.design.entityModule t.entity with
    | .ok leaf => s.anchorNamed? t.route leaf
    | .error _ => none
  else none

namespace Verdict

/-- What a verdict attaches to an entity. -/
def formOn? (n : Note) (anchor : Target → Option String) (e : Entity) : Verdict → Option Note
  | attach t => if t.entity = e then some (n.attachedForm t (anchor t)) else none
  | _ => none

/-- A verdict is to attach a note at a target, and an anchor describes the way there. -/
def Describes (d : Design) (n : Note) (v : Verdict) (x : Anchor) : Prop :=
  ∃ t, v = .attach t ∧ n.needsAnchor t = true ∧ d.describe t = .ok (x.path, x.leaf)

/-- The pins after a verdict. -/
def record (pins : Pins) : Verdict → Pins
  | source pin v => pins.update pin fun p => { p.getD {} with source := some v }
  | sink pin v => pins.update pin fun p => { p.getD {} with sinks := (p.getD {}).sinks ++ [v] }
  | _ => pins

end Verdict

namespace Lowering

variable {d : Design} {h : Hierarchy} {s s' s'' : LowerState} {n : Note} {t : Target} {v : Verdict}
  {options : LowerOptions}

/-- All that entering a verdict changes. -/
structure Entered (d : Design) (n : Note) (v : Verdict) (s s' : LowerState) : Prop where
  frame : ∃ attachments anchors symbols pool pins, s' = { s with
    pool, pins, design := { s.design with attachments, anchors, symbols } }
  attached : ∀ e, s'.design.attachments.attached e =
    s.design.attachments.attached e ++ (v.formOn? n (s'.anchorOf? n) e).toList
  entities : ∀ e ∈ s'.design.attachments.table.keys,
    e ∈ s.design.attachments.table.keys ∨ ∃ t, v = .attach t ∧ t.entity = e
  pins : s'.pins = v.record s.pins
  anchored : ∀ t, v = .attach t → n.needsAnchor t = true → (s'.anchorOf? n t).isSome
  kept : ∀ {route leaf name}, s.anchorNamed? route leaf = some name →
    s'.anchorNamed? route leaf = some name
  pooled : Pooled d s'
  built : s.design.Built → s'.design.Built
  numbered : s.design.Numbered → s'.design.Numbered
  room : s.design.symbols.room AnchorPool.hint ≤ s'.design.symbols.room AnchorPool.hint + 1
  gained : Gained (v.Describes d n) s s'

/-- A state with a note attached. -/
def attaching (s : LowerState) (t : Target) (form : Note) : LowerState :=
  { s with design := { s.design with
      attachments := s.design.attachments.append t.entity [form] } }

theorem entities_attaching {s : LowerState} {form : Note} {e : Entity}
    (h : e ∈ (attaching s t form).design.attachments.table.keys) :
    e ∈ s.design.attachments.table.keys ∨ ∃ t', Verdict.attach t = .attach t' ∧ t'.entity = e :=
  (OrderedMap.mem_keys_update.mp h).imp_right fun h => ⟨t, rfl, h.symm⟩

theorem built_attaching {s : LowerState} {form : Note} (H : s.design.Built) :
    (attaching s t form).design.Built :=
  H.call (.setNotes s.design.pending (s.design.attachments.append t.entity [form]))

/-- A note is attached where no anchor is needed. -/
theorem enter_attach_of_needless (P : Pooled d s) (h : n.needsAnchor t = false) :
    ∃ s', (Verdict.attach t).enter n s = .ok () s' ∧ Entered d n (.attach t) s s' := by
  have unnamed : ∀ s : LowerState, s.anchorOf? n t = none := fun s => by
    rw [LowerState.anchorOf?, h]
    rfl
  refine ⟨attaching s t (n.attachedForm t none), ?_, ⟨_, _, _, _, _, rfl⟩, fun e => ?_,
    fun _ => entities_attaching, rfl, fun t' e hneeds => ?_, id, P, built_attaching,
    fun N => ⟨N.anchors, N.symbols⟩, Nat.le_succ _, .none rfl⟩
  · rw [Verdict.enter, attachedFields_eq, if_neg (by simp [h])]
    rfl
  · rw [Verdict.formOn?, unnamed, attaching, Attachments.attached_append]
    split <;> simp [*]
  · cases e
    rw [h] at hneeds
    cases hneeds

theorem Aligned.entityModule (A : Aligned d h s) (e : Entity) :
    s.design.entityModule e = d.entityModule e := by
  obtain ⟨_, _, _, _, hd⟩ := A.design
  rw [hd]
  rfl

theorem checkVerdict_of_needs (h : n.needsAnchor t = true) :
    d.checkVerdict n (.attach t) = d.describe t >>= fun _ => .ok () := by
  rw [Design.checkVerdict, if_pos h]
  rfl

/-- The leaf of a target is asked for first. -/
theorem anchorFor_of_ok {leaf : ModuleId} (A : Aligned d h s)
    (hleaf : d.entityModule t.entity = .ok leaf) : anchorFor t s = anchorName t.route leaf s := by
  have hask : ask (·.entityModule t.entity) s = .ok leaf s := by
    rw [ask_apply, A.entityModule, hleaf]
    rfl
  exact EStateM.bind_of_ok hask

/-- A note is attached where the anchor that is needed can be written down, unless there is no name
for that. -/
theorem enter_attach_of_described (A : Aligned d h s) (P : Pooled d s)
    (hneeds : n.needsAnchor t = true) {written : List PathStep × String}
    (hw : d.describe t = .ok written) :
    (∃ s', (Verdict.attach t).enter n s = .ok () s' ∧ Entered d n (.attach t) s s') ∨
    ∃ o, (Verdict.attach t).enter n s = .error (.overflow o) s ∧
      s.design.symbols.room AnchorPool.hint = 0 := by
  obtain ⟨leaf, hleaf, hw⟩ := Checked.bind_eq_ok_iff.mp hw
  have hanchor := anchorFor_of_ok A hleaf
  rcases anchorName_cases A P hw with ⟨name, s₁, h₁, I⟩ | ⟨o, h₁, full⟩
  · obtain ⟨anchors, symbols, pool, rfl⟩ := I.frame
    have named : ∀ attachments pins, LowerState.anchorOf? { s with
        pool, pins, design := { s.design with attachments, anchors, symbols } } n t =
          some name := fun attachments pins => by
      rw [LowerState.anchorOf?, if_pos hneeds]
      have hleaf' : Design.entityModule { s.design with attachments, anchors, symbols } t.entity =
          .ok leaf := (A.entityModule t.entity).trans hleaf
      rw [hleaf']
      exact I.named
    refine .inl ⟨attaching { s with pool, design := { s.design with anchors, symbols } } t
      (n.attachedForm t (some name)), ?_, ⟨_, _, _, _, _, rfl⟩, fun e => ?_,
      fun _ => entities_attaching, rfl, fun t' e _ => ?_, I.kept, I.pooled,
      fun H => built_attaching (I.built H),
      fun N => ⟨(I.numbered N).anchors, (I.numbered N).symbols⟩, I.room, ?_⟩
    · rw [Verdict.enter, attachedFields_eq, if_pos hneeds, bind_assoc]
      exact EStateM.bind_of_ok (hanchor.trans h₁)
    · rw [Verdict.formOn?, attaching, Attachments.attached_append]
      have := named (s.design.attachments.append t.entity [n.attachedForm t (some name)]) s.pins
      dsimp only at this ⊢
      rw [this]
      split <;> simp [*]
    · cases e
      exact Option.isSome_iff_exists.mpr ⟨name, named _ _⟩
    · refine I.gained.mono fun x written => ⟨t, rfl, hneeds, ?_⟩
      rw [Design.describe, hleaf]
      exact written
  · refine .inr ⟨o, ?_, full⟩
    rw [Verdict.enter, attachedFields_eq, if_pos hneeds, bind_assoc]
    exact EStateM.bind_of_error (hanchor.trans h₁)

/-- A verdict that passed is entered, unless there is no name for an anchor. -/
theorem enter_cases (A : Aligned d h s) (P : Pooled d s) (passed : d.checkVerdict n v = .ok ()) :
    (∃ s', v.enter n s = .ok () s' ∧ Entered d n v s s') ∨
    ∃ o, v.enter n s = .error (.overflow o) s ∧ s.design.symbols.room AnchorPool.hint = 0 := by
  have plain : ∀ pins, v.record s.pins = pins → (∀ t, v ≠ .attach t) →
      Entered d n v s { s with pins } := by
    intro pins hpins other
    refine ⟨⟨_, _, _, _, _, rfl⟩, fun e => ?_, fun _ => .inl, hpins.symm,
      fun t ht => absurd ht (other t), id, P, id, id, Nat.le_succ _, .none rfl⟩
    cases v with
    | attach t => exact absurd rfl (other t)
    | _ => exact (List.append_nil _).symm
  cases v with
  | attach t =>
    cases hneeds : n.needsAnchor t with
    | false => exact .inl (enter_attach_of_needless P hneeds)
    | true =>
      obtain ⟨written, hw, -⟩ :=
        Checked.bind_eq_ok_iff.mp ((checkVerdict_of_needs hneeds).symm.trans passed)
      exact enter_attach_of_described A P hneeds hw
  | source pin value => exact .inl ⟨_, rfl, plain _ rfl nofun⟩
  | sink pin value => exact .inl ⟨_, rfl, plain _ rfl nofun⟩
  | drop => exact .inl ⟨_, rfl, plain _ rfl nofun⟩

/-- A verdict that did not pass cannot be entered. -/
theorem enter_of_unfit (A : Aligned d h s) (P : Pooled d s) {e : DesignError}
    (unfit : d.checkVerdict n v = .error e) :
    v.enter n s = .error (.failure (.design e)) s := by
  cases v with
  | attach t =>
    cases hneeds : n.needsAnchor t with
    | false =>
      rw [Design.checkVerdict, hneeds] at unfit
      cases unfit
    | true =>
      have hw : d.describe t = .error e := by
        rw [checkVerdict_of_needs hneeds] at unfit
        cases hw : d.describe t with
        | ok => rw [hw] at unfit; cases unfit
        | error e' => rw [hw] at unfit; cases unfit; rfl
      rw [Verdict.enter, attachedFields_eq, if_pos hneeds, bind_assoc]
      refine EStateM.bind_of_error ?_
      cases hleaf : d.entityModule t.entity with
      | ok leaf =>
        rw [anchorFor_of_ok A hleaf]
        refine anchorName_of_unwritten A P ?_
        rw [Design.describe, hleaf] at hw
        exact hw
      | error e' =>
        rw [Design.describe, hleaf] at hw
        cases hw
        refine EStateM.bind_of_error ?_
        rw [ask_apply, A.entityModule, hleaf]
        rfl
  | _ => cases unfit

/-! ### Lowering one note -/

/-- What lowering a note does: it reports why it is refused, or enters the verdict. Only a type with
too many parts and a lack of names for anchors end the lowering. -/
inductive Lowers (d : Design) (n : Note) (s : LowerState) :
    Except Halt Verdict → EStateM.Result Halt LowerState Unit → Prop where
  | refused (e : LowerError) {names : NameTables} {unhandled : Nat} (right : names.Right d) :
    Lowers d n s (.error (.failure e)) (.error (.failure e) { s with names, unhandled })
  | entered {v : Verdict} {names : NameTables} {unhandled : Nat} {s' : LowerState}
    (right : names.Right d) (entered : Entered d n v { s with names, unhandled } s') :
    Lowers d n s (.ok v) (.ok () s')
  | immeasurable (o : Overflow) (s' : LowerState) (cause : ¬d.Measurable) :
    Lowers d n s (.error (.overflow o)) (.error (.overflow o) s')
  | nameless (v : Verdict) (o : Overflow) (s' : LowerState)
    (cause : s.design.symbols.room AnchorPool.hint = 0) :
    Lowers d n s (.ok v) (.error (.overflow o) s')

theorem lowerNote_lowers (A : Aligned d h s) (P : Pooled d s) (options : LowerOptions) (n : Note) :
    Lowers d n s (d.verdict h options s.pins n) (lowerNote options .builtin n s) := by
  obtain ⟨r, -, hr⟩ := Asks.judgeNote (d := d) (h := h) options n
  obtain ⟨names, unhandled, N, hjudge⟩ := hr A
  obtain ⟨_, _, -, hsettle⟩ := A.settle options n
  have known : ∀ (r' : Except Halt Verdict) {s' : LowerState},
      settleNote options n s = r'.leaving s' → d.verdict h options s.pins n = r' := by
    intro r' s' hr'
    exact Except.eq_of_leaving (hsettle.symm.trans hr')
  have A' : Aligned d h { s with names, unhandled } := ⟨A.design, A.hierarchy, N⟩
  have P' : Pooled d { s with names, unhandled } := P
  rw [lowerNote_eq]
  cases hrs : r s.pins with
  | error e =>
    rw [hrs] at hjudge
    have hv := known (.error e) (EStateM.bind_of_error hjudge)
    rw [EStateM.bind_of_error hjudge, hv]
    cases e with
    | failure e => exact .refused e N
    | overflow o => exact .immeasurable o _ (d.verdict_excused h options s.pins n o hv)
  | ok v =>
    rw [hrs] at hjudge
    rw [EStateM.bind_of_ok hjudge]
    have checked := ask_apply (·.checkVerdict n v) { s with names, unhandled }
    have same : Design.checkVerdict s.design n v = d.checkVerdict n v := by
      obtain ⟨_, _, _, _, hd⟩ := A.design
      rw [hd]
      cases v <;> rfl
    rw [same] at checked
    cases hc : d.checkVerdict n v with
    | error e =>
      rw [hc] at checked
      rw [known (.error (.failure (.design e)))
        ((EStateM.bind_of_ok hjudge).trans (EStateM.bind_of_error checked)),
        enter_of_unfit A' P' hc]
      exact .refused _ N
    | ok =>
      rw [hc] at checked
      rw [known (.ok v) ((EStateM.bind_of_ok hjudge).trans (EStateM.bind_of_ok checked))]
      rcases enter_cases A' P' hc with ⟨s', hs', E⟩ | ⟨o, hs', full⟩
      · exact hs' ▸ .entered N E
      · exact hs' ▸ .nameless v o _ full

end Lowering

end AnnotatedCircuit
