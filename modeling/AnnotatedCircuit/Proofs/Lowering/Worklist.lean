import AnnotatedCircuit.Proofs.Lowering.Anchors

/-!
# Lowering a list of notes

Each note of a list is settled once, in its turn, and what came before it plays a role through the
pins alone (`Design.settlements`). The state after the list follows from how its notes were settled
(`Accounted`): each entity has its old notes and behind them, in order, the attached forms of those
that were accepted for it. The list is lowered to its end, unless a type has too many parts or the
names for anchors run out (`drain_cases`).
-/

namespace AnnotatedCircuit

open Lowering

/-- A note, and how it was settled. -/
structure Settlement where
  note : Note
  result : Except Halt Verdict

namespace Settlement

/-- What is reported about a note that is refused. -/
def refusal? (c : Settlement) : Option Diagnostic :=
  match c.result with
  | .error (.failure e) => some ⟨e, some c.note⟩
  | _ => none

/-- What a note attaches to an entity. -/
def formOn? (anchor : Note → Target → Option String) (e : Entity) (c : Settlement) : Option Note :=
  match c.result with
  | .ok v => v.formOn? c.note (anchor c.note) e
  | .error _ => none

/-- An anchor describes the way to the target at which a note is attached. -/
def Describes (d : Design) (x : Anchor) (c : Settlement) : Prop :=
  ∃ v, c.result = .ok v ∧ v.Describes d c.note x

/-- The pins after a note. -/
def record (pins : Pins) (c : Settlement) : Pins :=
  match c.result with
  | .ok v => v.record pins
  | .error _ => pins

variable {c : Settlement} {anchor : Note → Target → Option String} {e : Entity} {a : Note}

/-- Only a note that was accepted attaches something, and only to the entity it was accepted for. -/
theorem formOn?_eq_some_iff : c.formOn? anchor e = some a ↔ ∃ t, c.result = .ok (.attach t) ∧
    t.entity = e ∧ c.note.attachedForm t (anchor c.note t) = a := by
  obtain ⟨n, r⟩ := c
  cases r with
  | error e => simp [formOn?]
  | ok v => cases v <;> simp [formOn?, Verdict.formOn?]

end Settlement

/-- How the notes of a list are settled, one after the other. -/
def Design.settlements (d : Design) (h : Hierarchy) (options : LowerOptions) :
    Pins → List Note → List Settlement
  | _, [] => []
  | pins, n :: rest =>
    let c : Settlement := ⟨n, d.verdict h options pins n⟩
    c :: settlements d h options (c.record pins) rest

variable {d : Design} {h : Hierarchy} {options : LowerOptions} {s s' s'' : LowerState} {n : Note}
  {t : Target} {v : Verdict} {c : Settlement} {cs : List Settlement} {notes : List Note}

theorem Design.map_note_settlements (d : Design) (h : Hierarchy) (options : LowerOptions)
    (pins : Pins) (notes : List Note) :
    (d.settlements h options pins notes).map Settlement.note = notes := by
  induction notes generalizing pins with
  | nil => rfl
  | cons n notes ih => rw [settlements, List.map_cons, ih]

namespace Lowering

/-- The state after notes that were settled. -/
structure Accounted (d : Design) (h : Hierarchy) (cs : List Settlement) (s s' : LowerState) :
    Prop where
  frame : ∃ attachments anchors symbols names pool pins unhandled, s' = { s with
    names, pool, pins, unhandled, design := { s.design with attachments, anchors, symbols } }
  attached : ∀ e, s'.design.attachments.attached e =
    s.design.attachments.attached e ++ cs.filterMap (Settlement.formOn? s'.anchorOf? e)
  entities : ∀ e ∈ s'.design.attachments.table.keys, e ∈ s.design.attachments.table.keys ∨
    ∃ c ∈ cs, ∃ t, c.result = .ok (.attach t) ∧ t.entity = e
  pins : s'.pins = cs.foldl Settlement.record s.pins
  anchored : ∀ c ∈ cs, ∀ t, c.result = .ok (.attach t) → c.note.needsAnchor t = true →
    (s'.anchorOf? c.note t).isSome
  kept : ∀ {route leaf name}, s.anchorNamed? route leaf = some name →
    s'.anchorNamed? route leaf = some name
  settled : ∀ c ∈ cs, ∀ o, c.result ≠ .error (.overflow o)
  aligned : Aligned d h s'
  pooled : Pooled d s'
  built : s.design.Built → s'.design.Built
  numbered : s.design.Numbered → s'.design.Numbered
  room : s.design.symbols.room AnchorPool.hint ≤
    s'.design.symbols.room AnchorPool.hint + cs.length
  gained : Gained (fun x => ∃ c ∈ cs, c.Describes d x) s s'

theorem Entered.aligned (E : Entered d n v s s') (A : Aligned d h s) : Aligned d h s' := by
  obtain ⟨attachments, anchors, symbols, _, _, rfl⟩ := E.frame
  obtain ⟨pending, _, _, _, hd⟩ := A.design
  refine ⟨⟨pending, attachments, anchors, symbols, ?_⟩, A.hierarchy, A.names⟩
  dsimp only
  rw [hd]

theorem anchorOf?_kept (A : Aligned d h s) (A' : Aligned d h s')
    (kept : ∀ {route leaf name}, s.anchorNamed? route leaf = some name →
      s'.anchorNamed? route leaf = some name)
    (anchored : n.needsAnchor t = true → (s.anchorOf? n t).isSome) :
    s.anchorOf? n t = s'.anchorOf? n t := by
  cases hneeds : n.needsAnchor t with
  | false => rw [LowerState.anchorOf?, LowerState.anchorOf?, hneeds]; rfl
  | true =>
    obtain ⟨name, hname⟩ := Option.isSome_iff_exists.mp (anchored hneeds)
    rw [hname]
    rw [LowerState.anchorOf?, if_pos hneeds, A.entityModule] at hname
    rw [LowerState.anchorOf?, if_pos hneeds, A'.entityModule]
    cases hleaf : d.entityModule t.entity with
    | ok leaf =>
      rw [hleaf] at hname
      exact (kept hname).symm
    | error e =>
      rw [hleaf] at hname
      cases hname

namespace Accounted

theorem nil (A : Aligned d h s) (P : Pooled d s) : Accounted d h [] s s where
  frame := ⟨_, _, _, _, _, _, _, rfl⟩
  attached _ := (List.append_nil _).symm
  entities _ := .inl
  pins := rfl
  anchored := nofun
  kept := id
  settled := nofun
  aligned := A
  pooled := P
  built := id
  numbered := id
  room := Nat.le_add_right ..
  gained := .none rfl

/-- A note that is refused changes nothing that counts. -/
theorem refused {e : LowerError} {names : NameTables} {unhandled : Nat}
    (R : Accounted d h cs { s with names, unhandled } s') (hc : c.result = .error (.failure e)) :
    Accounted d h (c :: cs) s s' where
  frame := R.frame
  attached e := by
    rw [List.filterMap_cons_none (by rw [Settlement.formOn?, hc])]
    exact R.attached e
  entities e he := (R.entities e he).imp_right fun ⟨c', hc', h⟩ => ⟨c', List.mem_cons_of_mem _ hc', h⟩
  pins := by
    rw [List.foldl_cons, Settlement.record, hc]
    exact R.pins
  anchored c' hc' t ht := by
    rcases List.mem_cons.mp hc' with rfl | hc'
    · rw [hc] at ht
      cases ht
    · exact R.anchored c' hc' t ht
  kept := R.kept
  settled c' hc' o ho := by
    rcases List.mem_cons.mp hc' with rfl | hc'
    · rw [hc] at ho
      cases ho
    · exact R.settled c' hc' o ho
  aligned := R.aligned
  pooled := R.pooled
  built := R.built
  numbered := R.numbered
  room := Nat.le_succ_of_le R.room
  gained := R.gained.mono fun _ => List.exists_mem_cons_of_exists

/-- A note that is accepted attaches a form or is recorded with the pins, and the names of anchors
stay. -/
theorem entered {names : NameTables} {unhandled : Nat}
    (E : Entered d c.note v { s with names, unhandled } s') (A : Aligned d h s')
    (R : Accounted d h cs s' s'') (hc : c.result = .ok v) : Accounted d h (c :: cs) s s'' where
  frame := by
    obtain ⟨_, _, _, _, _, rfl⟩ := E.frame
    obtain ⟨_, _, _, _, _, _, _, rfl⟩ := R.frame
    exact ⟨_, _, _, _, _, _, _, rfl⟩
  attached e := by
    have same : v.formOn? c.note (s'.anchorOf? c.note) e =
        Settlement.formOn? s''.anchorOf? e c := by
      rw [Settlement.formOn?, hc]
      cases v with
      | attach t =>
        have := anchorOf?_kept A R.aligned R.kept (E.anchored t rfl)
        simp only [Verdict.formOn?, this]
      | _ => rfl
    rw [R.attached, E.attached, same, List.append_assoc]
    cases hform : Settlement.formOn? s''.anchorOf? e c with
    | none => rw [List.filterMap_cons_none hform]; rfl
    | some form => rw [List.filterMap_cons_some hform]; rfl
  entities e he := by
    rcases R.entities e he with he | ⟨c', hc', h⟩
    · refine (E.entities e he).imp_right ?_
      rintro ⟨t, rfl, rfl⟩
      exact ⟨c, List.mem_cons_self, t, hc, rfl⟩
    · exact .inr ⟨c', List.mem_cons_of_mem _ hc', h⟩
  pins := by
    rw [R.pins, E.pins, List.foldl_cons, Settlement.record, hc]
  anchored c' hc' t ht hneeds := by
    rcases List.mem_cons.mp hc' with rfl | hc'
    · rw [hc] at ht
      cases ht
      exact anchorOf?_kept A R.aligned R.kept (E.anchored t rfl) ▸ E.anchored t rfl hneeds
    · exact R.anchored c' hc' t ht hneeds
  kept h := R.kept (E.kept h)
  settled c' hc' o ho := by
    rcases List.mem_cons.mp hc' with rfl | hc'
    · rw [hc] at ho
      cases ho
    · exact R.settled c' hc' o ho
  aligned := R.aligned
  pooled := R.pooled
  built H := R.built (E.built H)
  numbered N := R.numbered (E.numbered N)
  room := by
    have h₁ := E.room
    have h₂ := R.room
    rw [List.length_cons]
    dsimp only at h₁
    omega
  gained := by
    refine Gained.trans ?_ (R.gained.mono fun _ => List.exists_mem_cons_of_exists)
    exact E.gained.mono fun _ h => List.exists_mem_cons_of cs ⟨v, hc, h⟩

/-- Notes ask for paths and connections only at the end. -/
theorem idle (R : Accounted d h cs s s') : s'.table = s.table ∧ s'.requests = s.requests := by
  obtain ⟨_, _, _, _, _, _, _, rfl⟩ := R.frame
  exact ⟨rfl, rfl⟩

end Accounted

section

variable {t : LowerState} {budget : Nat}

theorem drain_step_of_ok (idle : t.spawned = [])
    (hn : lowerNote options .builtin n s = .ok () t) :
    drain options .builtin (budget + 1) (n :: notes) s = drain options .builtin budget notes t := by
  have same : ({ t with spawned := [] } : LowerState) = t := by rw [← idle]
  rw [drain, hn]
  dsimp only
  rw [same, idle, List.nil_append]

theorem drain_step_of_failure {e : LowerError} (idle : t.spawned = [])
    (hn : lowerNote options .builtin n s = .error (.failure e) t) :
    drain options .builtin (budget + 1) (n :: notes) s = do
      let (s, ds) ← drain options .builtin budget notes t
      return (s, ⟨e, some n⟩ :: ds) := by
  have same : ({ t with spawned := [] } : LowerState) = t := by rw [← idle]
  rw [drain, hn]
  dsimp only
  rw [same, idle, List.nil_append]

end

/-- A list of notes is lowered to its end, unless a type has too many parts or the names for anchors
run out. -/
theorem drain_cases (options : LowerOptions) (A : Aligned d h s) (P : Pooled d s)
    (idle : s.spawned = []) {budget : Nat} (enough : notes.length ≤ budget) :
    (∃ s', drain options .builtin budget notes s = .ok (s',
        (d.settlements h options s.pins notes).filterMap Settlement.refusal?) ∧
      Accounted d h (d.settlements h options s.pins notes) s s') ∨
    ∃ o, drain options .builtin budget notes s = .error (.overflow o) ∧
      (¬d.Measurable ∨ s.design.symbols.room AnchorPool.hint < notes.length) := by
  induction notes generalizing s budget with
  | nil => exact .inl ⟨s, by cases budget <;> rfl, .nil A P⟩
  | cons n notes ih =>
    obtain ⟨budget, rfl⟩ : ∃ b, budget = b + 1 := Nat.exists_eq_succ_of_ne_zero (by
      rintro rfl
      cases enough)
    have enough' : notes.length ≤ budget := Nat.le_of_succ_le_succ enough
    rw [Design.settlements]
    generalize hr : d.verdict h options s.pins n = r
    generalize hx : lowerNote options .builtin n s = x
    have L := lowerNote_lowers A P options n
    rw [hr, hx] at L
    cases L with
    | refused e right =>
      rename_i names unhandled
      have A' : Aligned d h { s with names, unhandled } := ⟨A.design, A.hierarchy, right⟩
      have idle' : ({ s with names, unhandled } : LowerState).spawned = [] := idle
      rw [drain_step_of_failure idle' hx]
      rcases ih A' P idle' enough' with ⟨s', h', R⟩ | ⟨o, h', full⟩
      · refine .inl ⟨s', ?_, .refused R rfl⟩
        rw [h']
        rfl
      · refine .inr ⟨o, ?_, full.imp_right Nat.lt_succ_of_lt⟩
        rw [h']
        rfl
    | entered right E =>
      rename_i v names unhandled s₁
      have A' : Aligned d h s₁ := E.aligned ⟨A.design, A.hierarchy, right⟩
      have idle' : s₁.spawned = [] := by
        obtain ⟨_, _, _, _, _, rfl⟩ := E.frame
        exact idle
      have hpins : s₁.pins = Settlement.record s.pins ⟨n, .ok v⟩ := E.pins
      rw [drain_step_of_ok idle' hx, ← hpins]
      rcases ih A' E.pooled idle' enough' with ⟨s', h', R⟩ | ⟨o, h', full⟩
      · exact .inl ⟨s', h', .entered E A' R rfl⟩
      · refine .inr ⟨o, h', full.imp_right fun full => ?_⟩
        have := E.room
        rw [List.length_cons]
        dsimp only at this
        omega
    | immeasurable o s' cause => exact .inr ⟨o, by rw [drain, hx], .inl cause⟩
    | nameless v o s' cause =>
      exact .inr ⟨o, by rw [drain, hx], .inr (cause ▸ Nat.succ_pos _)⟩

end Lowering

end AnnotatedCircuit
