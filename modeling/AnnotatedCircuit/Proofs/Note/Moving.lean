import AnnotatedCircuit.Note.Attachments
import AnnotatedCircuit.Proofs.OrderedMap

/-!
# Moving attached notes

Moving the notes of an operation to another one, and then forgetting the first, loses no note: every
entity of the first operation hands its list over as it is (`attached_moveOp`), the number of notes
stays (`size_moveOp`), and nothing of the first operation is left (`mem_keys_moveOp`). Moving them
back undoes this where the second operation had no notes of its own (`attached_moveOp_back`).
-/

namespace AnnotatedCircuit

namespace Entity

variable {e : Entity} {o p : OpId}

@[simp] theorem op?_withOp : (e.withOp p).op? = e.op?.map fun _ => p := by
  cases e with
  | port owner i => cases owner <;> rfl
  | _ => rfl

@[simp] theorem withOp_withOp (e : Entity) (o p : OpId) : (e.withOp o).withOp p = e.withOp p := by
  cases e with
  | port owner i => cases owner <;> rfl
  | _ => rfl

theorem op?_eq_some_iff : e.op? = some o ↔ e = .op o ∨ ∃ i, e = .port (.inst o) i := by
  constructor
  · intro h
    cases e with
    | op o' => exact .inl (congrArg Entity.op (Option.some.inj h))
    | port owner i =>
      cases owner with
      | inst o' => exact .inr ⟨i, congrArg (fun o => Entity.port (.inst o) i) (Option.some.inj h)⟩
      | module m => cases h
    | _ => cases h
  · rintro (rfl | ⟨i, rfl⟩) <;> rfl

theorem withOp_of_op? (h : e.op? = some o) : e.withOp o = e := by
  cases e with
  | op o' => exact congrArg Entity.op (Option.some.inj h).symm
  | port owner i =>
    cases owner with
    | inst o' => exact congrArg (fun o => Entity.port (.inst o) i) (Option.some.inj h).symm
    | module m => cases h
  | _ => cases h

end Entity

namespace Attachments

variable {t : Attachments} {a b e : Entity} {o p : OpId}

theorem attached_of_not_mem (h : e ∉ t.table.keys) : t.attached e = [] := by
  rw [attached, OrderedMap.find?_eq_none h]
  rfl

theorem attached_of_mem {notes : List Note} (h : (e, notes) ∈ t.table.entries) :
    t.attached e = notes := by
  rw [attached, OrderedMap.find?_of_mem h]
  rfl

theorem size_eq (t : Attachments) : t.size = (t.table.entries.map (·.2.length)).sum := by
  rw [size, List.length_flatten, OrderedMap.values, List.map_map]
  rfl

theorem size_append (t : Attachments) (e : Entity) (notes : List Note) :
    (t.append e notes).size = t.size + notes.length := by
  have := OrderedMap.sum_updateEntries List.length e (fun old => old.getD [] ++ notes)
    t.table.entries
  rw [size_eq, size_eq]
  change ((OrderedMap.updateEntries e _ t.table.entries).map (·.2.length)).sum = _
  cases h : OrderedMap.lookup e t.table.entries with
  | none => simpa [h] using this
  | some old =>
    simp only [h, Option.map_some, Option.getD_some, List.length_append] at this
    omega

/-! ### Moving the notes of an entity -/

theorem attached_move (h : a ≠ b) (e : Entity) : (t.move a b).attached e =
    if e = a then [] else if e = b then t.attached b ++ t.attached a else t.attached e := by
  cases ha : t.table.find? a with
  | none =>
    have none : t.attached a = [] := by rw [attached, ha]; rfl
    have same : t.move a b = t := by rw [move, ha]
    rw [same, none, List.append_nil]
    by_cases hb : e = b
    · rw [hb, if_neg h.symm, if_pos rfl]
    · rw [if_neg hb]
      by_cases he : e = a
      · rw [he, none, if_pos rfl]
      · rw [if_neg he]
  | some notes =>
    have some : t.attached a = notes := by rw [attached, ha]; rfl
    have erased : ∀ e, attached ⟨t.table.erase a⟩ e = if e = a then [] else t.attached e := by
      intro e
      rw [attached, OrderedMap.find?_erase]
      by_cases he : e = a
      · simp [he]
      · simp [he, Ne.symm he, attached]
    rw [move, ha]
    dsimp only
    rw [attached_append, erased, erased, if_neg h.symm, some]
    by_cases hb : e = b
    · subst hb
      rw [if_pos rfl, if_neg h.symm, if_pos rfl]
    · rw [if_neg (Ne.symm hb), if_neg hb]

/-- A move attaches nothing new, also where an entity is moved onto itself. -/
theorem mem_attached_move {n : Note} (h : n ∈ (t.move a b).attached e) : ∃ e', n ∈ t.attached e' := by
  cases ha : t.table.find? a with
  | none =>
    rw [move, ha] at h
    exact ⟨e, h⟩
  | some notes =>
    have erased : ∀ {e}, n ∈ attached ⟨t.table.erase a⟩ e → ∃ e', n ∈ t.attached e' := by
      intro e h
      rw [attached, OrderedMap.find?_erase] at h
      split at h
      · cases h
      · exact ⟨e, h⟩
    rw [move, ha, attached_append] at h
    split at h
    · refine (List.mem_append.mp h).elim erased fun h => ⟨a, ?_⟩
      rwa [attached, ha]
    · exact erased h

theorem mem_attached_moveOp {n : Note} (h : n ∈ (t.moveOp o p).attached e) :
    ∃ e', n ∈ t.attached e' := by
  unfold moveOp at h
  generalize t.table.keys.filter (fun e => e.op? == some o) = es at h
  induction es generalizing t with
  | nil => exact ⟨e, h⟩
  | cons a es ih =>
    obtain ⟨e', h'⟩ := ih h
    exact mem_attached_move h'

theorem size_move (t : Attachments) (a b : Entity) : (t.move a b).size = t.size := by
  cases ha : t.table.find? a with
  | none => rw [move, ha]
  | some notes =>
    have := OrderedMap.sum_erase List.length a t.table
    rw [ha, Option.map_some, Option.getD_some] at this
    rw [move, ha, size_append, size_eq, size_eq]
    exact this

/-- A move takes its first entity off the table, and enters the second one at most. -/
theorem mem_keys_move (h : a ≠ b) (he : e ∈ (t.move a b).table.keys) :
    e ≠ a ∧ (e ∈ t.table.keys ∨ e = b ∧ a ∈ t.table.keys) := by
  cases ha : t.table.find? a with
  | none =>
    rw [move, ha] at he
    refine ⟨?_, .inl he⟩
    rintro rfl
    obtain ⟨_, h⟩ := Option.isSome_iff_exists.mp ((OrderedMap.contains_iff ..).mpr he)
    simp [ha] at h
  | some notes =>
    rw [move, ha] at he
    rcases OrderedMap.mem_keys_update.mp he with he | rfl
    · obtain ⟨he, hne⟩ := OrderedMap.mem_keys_filterKeys.mp he
      exact ⟨of_decide_eq_true hne, .inl he⟩
    · exact ⟨h.symm, .inr ⟨rfl, OrderedMap.mem_keys_of_find? ha⟩⟩

/-! ### Moving the notes of an operation -/

/-- Move the notes of some entities to the same entities of another operation. -/
def moveAll (t : Attachments) (p : OpId) (es : List Entity) : Attachments :=
  es.foldl (fun t e => t.move e (e.withOp p)) t

/-- Entities of different operations are different. -/
theorem ne_of_op? (h : o ≠ p) (ha : a.op? = some o) (hb : b.op? = some p) : a ≠ b := by
  rintro rfl
  exact h (Option.some.inj (ha.symm.trans hb))

theorem op?_withOp_of_op? (h : a.op? = some o) (p : OpId) : (a.withOp p).op? = some p := by
  rw [Entity.op?_withOp, h]
  rfl

theorem size_moveAll (t : Attachments) (p : OpId) (es : List Entity) :
    (t.moveAll p es).size = t.size := by
  induction es generalizing t with
  | nil => rfl
  | cons e es ih => exact (ih _).trans (size_move ..)

section moveAll

variable {es : List Entity} (h : o ≠ p) (hes : ∀ e ∈ es, e.op? = some o)
include h hes

theorem attached_moveAll_of_ne (t : Attachments) (he : e.op? ≠ some p) :
    (t.moveAll p es).attached e = if e ∈ es then [] else t.attached e := by
  induction es generalizing t with
  | nil => simp [moveAll]
  | cons a es ih =>
    obtain ⟨ha, hes⟩ := List.forall_mem_cons.mp hes
    have hp := op?_withOp_of_op? ha p
    have hne : e ≠ a.withOp p := fun eq => he (eq ▸ hp)
    refine (ih hes _).trans ?_
    rw [attached_move (ne_of_op? h ha hp), if_neg hne]
    by_cases hea : e = a <;> simp [hea]

/-- The entities of the second operation receive the notes of their namesakes. -/
theorem attached_moveAll (nodup : es.Nodup) (t : Attachments) (he : e.op? = some p) :
    (t.moveAll p es).attached e =
      t.attached e ++ if e.withOp o ∈ es then t.attached (e.withOp o) else [] := by
  have ho := op?_withOp_of_op? he o
  induction es generalizing t with
  | nil => simp [moveAll]
  | cons a es ih =>
    obtain ⟨hnot, nodup⟩ := List.nodup_cons.mp nodup
    obtain ⟨ha, hes⟩ := List.forall_mem_cons.mp hes
    have hp := op?_withOp_of_op? ha p
    have hmove := attached_move (t := t) (ne_of_op? h ha hp)
    refine (ih hes nodup _).trans ?_
    rw [hmove, hmove, if_neg (ne_of_op? h ha he).symm, if_neg (ne_of_op? h ho hp)]
    by_cases hea : e.withOp o = a
    · have hback : e = a.withOp p := by
        rw [← hea, Entity.withOp_withOp, Entity.withOp_of_op? he]
      rw [hea, if_pos hback, if_neg hnot, if_pos List.mem_cons_self, List.append_nil, ← hback]
    · have hback : e ≠ a.withOp p := fun eq => hea <| by
        rw [eq, Entity.withOp_withOp, Entity.withOp_of_op? ha]
      simp only [if_neg hback, hea, if_false, List.mem_cons, false_or]

theorem mem_keys_moveAll {t : Attachments} (he : e ∈ (t.moveAll p es).table.keys) :
    e ∉ es ∧ (e ∈ t.table.keys ∨ ∃ a ∈ t.table.keys, a.op? = some o ∧ e = a.withOp p) := by
  induction es generalizing t with
  | nil => exact ⟨List.not_mem_nil, .inl he⟩
  | cons a es ih =>
    obtain ⟨ha, hes⟩ := List.forall_mem_cons.mp hes
    have hp := op?_withOp_of_op? ha p
    have hne := ne_of_op? h ha hp
    obtain ⟨hnot, cases⟩ := ih hes he
    rw [List.mem_cons, not_or]
    rcases cases with hk | ⟨b, hb, hbo, rfl⟩
    · obtain ⟨hea, hk | ⟨rfl, hmem⟩⟩ := mem_keys_move hne hk
      · exact ⟨⟨hea, hnot⟩, .inl hk⟩
      · exact ⟨⟨hea, hnot⟩, .inr ⟨a, hmem, ha, rfl⟩⟩
    · have hb := (mem_keys_move hne hb).2.resolve_right fun hx => ne_of_op? h hbo hp hx.1
      exact ⟨⟨(ne_of_op? h ha (op?_withOp_of_op? hbo p)).symm, hnot⟩, .inr ⟨b, hb, hbo, rfl⟩⟩

end moveAll

theorem moveOp_eq (t : Attachments) (o p : OpId) :
    t.moveOp o p = t.moveAll p (t.table.keys.filter fun e => e.op? == some o) := rfl

/-- The notes of an operation and of its ports, in order, come behind those that the same entity of
the other operation has. -/
theorem attached_moveOp (h : o ≠ p) (t : Attachments) (e : Entity) :
    (t.moveOp o p).attached e =
      if e.op? = some o then []
      else if e.op? = some p then t.attached e ++ t.attached (e.withOp o)
      else t.attached e := by
  have listed : ∀ e : Entity, e ∈ t.table.keys.filter (fun e => e.op? == some o) ↔
      e ∈ t.table.keys ∧ e.op? = some o := fun e => by simp [List.mem_filter]
  have hes := fun e he => ((listed e).mp he).2
  rw [moveOp_eq]
  by_cases hp : e.op? = some p
  · have hpo : e.op? ≠ some o := fun ho => ne_of_op? h ho hp rfl
    rw [attached_moveAll h hes (t.table.keys_nodup.filter _) t hp, if_neg hpo, if_pos hp]
    simp only [listed, op?_withOp_of_op? hp o, and_true]
    by_cases hk : e.withOp o ∈ t.table.keys
    · rw [if_pos hk]
    · rw [if_neg hk, attached_of_not_mem hk]
  · rw [attached_moveAll_of_ne h hes t hp, if_neg hp]
    simp only [listed]
    by_cases hk : e ∈ t.table.keys
    · simp only [hk, true_and]
    · simp only [hk, false_and, attached_of_not_mem hk, ite_self]

/-- Moving the notes of an operation to the operation itself leaves each list as it is. -/
theorem attached_moveOp_self (t : Attachments) (o : OpId) (e : Entity) :
    (t.moveOp o o).attached e = t.attached e := by
  have stays : ∀ (t : Attachments) (a : Entity), (t.move a a).attached e = t.attached e := by
    intro t a
    cases ha : t.table.find? a with
    | none => rw [move, ha]
    | some notes =>
      rw [move, ha, attached_append]
      by_cases h : a = e
      · rw [if_pos h, attached, OrderedMap.find?_erase, if_pos rfl, attached, ← h, ha]
        rfl
      · rw [if_neg h, attached, OrderedMap.find?_erase, if_neg h, attached]
  have hes : ∀ a ∈ t.table.keys.filter (fun e => e.op? == some o), a.op? = some o := fun a ha => by
    simpa using (List.mem_filter.mp ha).2
  rw [moveOp_eq]
  generalize t.table.keys.filter (fun e => e.op? == some o) = es at hes
  induction es generalizing t with
  | nil => rfl
  | cons a es ih =>
    obtain ⟨ha, hes⟩ := List.forall_mem_cons.mp hes
    have rest := ih (t.move a (a.withOp o)) hes
    rw [Entity.withOp_of_op? ha] at rest
    refine Eq.trans ?_ (rest.trans (stays t a))
    rw [moveAll, List.foldl_cons, Entity.withOp_of_op? ha]
    rfl

/-- What was moved to an operation without notes can be moved back. -/
theorem attached_moveOp_back (h : o ≠ p) (none : ∀ e : Entity, e.op? = some p → t.attached e = [])
    (e : Entity) : ((t.moveOp o p).moveOp p o).attached e = t.attached e := by
  rw [attached_moveOp h.symm]
  split
  · rename_i hp
    exact (none e hp).symm
  · rename_i hp
    split
    · rename_i ho
      have there : (e.withOp p).op? = some p := op?_withOp_of_op? ho p
      have left : (t.moveOp o p).attached e = [] := by rw [attached_moveOp h, if_pos ho]
      have gained : (t.moveOp o p).attached (e.withOp p) = t.attached e := by
        rw [attached_moveOp h, if_neg (fun ho => ne_of_op? h ho there rfl), if_pos there,
          none _ there, Entity.withOp_withOp, Entity.withOp_of_op? ho, List.nil_append]
      rw [left, gained, List.nil_append]
    · rename_i ho
      rw [attached_moveOp h, if_neg ho, if_neg hp]

theorem size_moveOp (t : Attachments) (o p : OpId) : (t.moveOp o p).size = t.size :=
  size_moveAll ..

/-- Nothing of the first operation is left; its entities became those of the other one. -/
theorem mem_keys_moveOp (h : o ≠ p) (he : e ∈ (t.moveOp o p).table.keys) :
    e.op? ≠ some o ∧ (e ∈ t.table.keys ∨ ∃ a ∈ t.table.keys, a.op? = some o ∧ e = a.withOp p) := by
  have hes : ∀ e ∈ t.table.keys.filter fun e => e.op? == some o, e.op? = some o := fun e he => by
    simpa using (List.mem_filter.mp he).2
  obtain ⟨hnot, cases⟩ := mem_keys_moveAll h hes he
  refine ⟨fun ho => ?_, cases⟩
  rcases cases with hk | ⟨a, -, hao, rfl⟩
  · exact hnot (List.mem_filter.mpr ⟨hk, by simp [ho]⟩)
  · exact ne_of_op? h ho (op?_withOp_of_op? hao p) rfl

/-- What is not listed need not be forgotten. -/
theorem forgetOp_eq_self (h : ∀ e ∈ t.table.keys, e.op? ≠ some o) : t.forgetOp o = t := by
  obtain ⟨m⟩ := t
  refine congrArg Attachments.mk (OrderedMap.ext (List.filter_eq_self.mpr fun e he => ?_))
  simpa using h e.1 (List.mem_map_of_mem he)

theorem forgetOp_moveOp (h : o ≠ p) (t : Attachments) :
    (t.moveOp o p).forgetOp o = t.moveOp o p :=
  forgetOp_eq_self fun _ he => (mem_keys_moveOp h he).1

/-- Notes that are moved from one operation to another come, entity by entity, behind those that are
there. None is left behind, none is lost, and no other entity is affected. They can be moved back if
there were none before. -/
theorem moveOp_exact (t : Attachments) (h : o ≠ p) :
    (t.moveOp o p).attached (.op p) = t.attached (.op p) ++ t.attached (.op o) ∧
    (∀ i, (t.moveOp o p).attached (.port (.inst p) i) =
      t.attached (.port (.inst p) i) ++ t.attached (.port (.inst o) i)) ∧
    (t.moveOp o p).attached (.op o) = [] ∧
    (∀ i, (t.moveOp o p).attached (.port (.inst o) i) = []) ∧
    (∀ e, e.op? ≠ some o → e.op? ≠ some p → (t.moveOp o p).attached e = t.attached e) ∧
    (t.moveOp o p).size = t.size ∧
    (t.moveOp o p).forgetOp o = t.moveOp o p ∧
    (t.attached (.op p) = [] → (∀ i, t.attached (.port (.inst p) i) = []) →
      ∀ e, ((t.moveOp o p).moveOp p o).attached e = t.attached e) := by
  have gains : ∀ e : Entity, e.op? = some p →
      (t.moveOp o p).attached e = t.attached e ++ t.attached (e.withOp o) := by
    intro e hp
    rw [attached_moveOp h, if_neg (fun ho => ne_of_op? h ho hp rfl), if_pos hp]
  have loses : ∀ e : Entity, e.op? = some o → (t.moveOp o p).attached e = [] := by
    intro e ho
    rw [attached_moveOp h, if_pos ho]
  refine ⟨gains _ rfl, fun i => gains _ rfl, loses _ rfl, fun i => loses _ rfl, ?_,
    size_moveOp t o p, forgetOp_moveOp h t, ?_⟩
  · intro e ho hp
    rw [attached_moveOp h, if_neg ho, if_neg hp]
  · intro noneOn noneAt
    apply attached_moveOp_back h
    intro e hp
    rcases Entity.op?_eq_some_iff.mp hp with rfl | ⟨i, rfl⟩
    · exact noneOn
    · exact noneAt i

/-- Notes on an instance and on two of its ports, of which the instance `5` has notes on one. -/
def sharedNotes : Attachments := ⟨.ofList [(.port (.inst ⟨1⟩) 2, [.ofClass "a"]),
  (.op ⟨5⟩, [.ofClass "b"]), (.op ⟨1⟩, [.ofClass "c", .ofClass "d"]), (.circuit, [.ofClass "e"]),
  (.port (.inst ⟨5⟩) 2, [.ofClass "f"]), (.port (.inst ⟨1⟩) 0, [.ofClass "g"])]⟩

/-- They merge with the notes of `5`, and return from `9`. -/
theorem moveOp_exact_sharedNotes : (⟨1⟩ : OpId) ≠ ⟨5⟩ ∧ (⟨1⟩ : OpId) ≠ ⟨9⟩ ∧
    (sharedNotes.moveOp ⟨1⟩ ⟨5⟩).attached (.op ⟨5⟩) =
      [.ofClass "b", .ofClass "c", .ofClass "d"] ∧
    (sharedNotes.moveOp ⟨1⟩ ⟨5⟩).attached (.port (.inst ⟨5⟩) 2) = [.ofClass "f", .ofClass "a"] ∧
    (sharedNotes.moveOp ⟨1⟩ ⟨5⟩).attached (.port (.inst ⟨5⟩) 0) = [.ofClass "g"] ∧
    (sharedNotes.moveOp ⟨1⟩ ⟨5⟩).attached (.op ⟨1⟩) = [] ∧
    (sharedNotes.moveOp ⟨1⟩ ⟨5⟩).attached .circuit = [.ofClass "e"] ∧
    (sharedNotes.moveOp ⟨1⟩ ⟨5⟩).size = 7 ∧
    ∀ e, ((sharedNotes.moveOp ⟨1⟩ ⟨9⟩).moveOp ⟨9⟩ ⟨1⟩).attached e = sharedNotes.attached e := by
  have h : (⟨1⟩ : OpId) ≠ ⟨5⟩ := by decide
  have h' : (⟨1⟩ : OpId) ≠ ⟨9⟩ := by decide
  obtain ⟨onOp, onPort, left, -, others, size, -, -⟩ := moveOp_exact sharedNotes h
  obtain ⟨-, -, -, -, -, -, -, back⟩ := moveOp_exact sharedNotes h'
  exact ⟨h, h', onOp, onPort 2, onPort 0, left, others _ nofun nofun, size, back rfl fun _ => rfl⟩

end Attachments

end AnnotatedCircuit
