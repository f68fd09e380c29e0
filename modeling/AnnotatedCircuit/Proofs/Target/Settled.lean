import AnnotatedCircuit.Proofs.SignalType.FieldId
import AnnotatedCircuit.Proofs.Target.Continued

/-!
# The answer of a resolution is settled

What a path resolves to, or why it does not, depends on the design alone: neither on the names that
were looked up before (`TargetPath.resolve_settled`), nor on notes, anchors and symbols
(`TargetPath.resolve_annotated`). The resolution overflows only when a type has too many parts.
-/

namespace AnnotatedCircuit

variable {α β : Type} {d : Design} {h : Hierarchy} {text : String}

/-- Every value has a type whose parts can be numbered. -/
def Design.Measurable (d : Design) : Prop := ∀ v ∈ d.values, v.type.Sized

theorem Design.Measurable.entityType {e : Entity} {t : SignalType} (M : d.Measurable)
    (h : d.entityType e = .ok (some t)) : t.Sized := by
  obtain ⟨v, -, ht⟩ := Design.entityType_eq_some_iff.mp h
  obtain ⟨a, ha, rfl⟩ := Design.valueType_eq_ok_iff.mp ht
  exact M a (List.mem_of_getElem? ha)

/-- An overflow is the fault of the types. -/
def Design.Excuses (d : Design) (r : Except Halt α) : Prop :=
  ∀ o, r = .error (.overflow o) → ¬d.Measurable

/-- From right tables of names a step always answers the same. -/
def Settled (d : Design) (x : Attempt NameTables α) : Prop :=
  ∃ r : Except Halt α, d.Excuses r ∧
    ∀ {t : NameTables}, t.Right d → ∃ t', t'.Right d ∧ x t = r.leaving t'

namespace Settled

variable {x : Attempt NameTables α} {f : α → Attempt NameTables β}

theorem pure (a : α) : Settled d (Pure.pure a : Attempt NameTables α) :=
  ⟨.ok a, nofun, fun T => ⟨_, T, rfl⟩⟩

theorem fail (e : LowerError) : Settled d (Attempt.fail e : Attempt NameTables α) :=
  ⟨.error (.failure e), nofun, fun T => ⟨_, T, rfl⟩⟩

theorem ofDesign (question : Except DesignError α) :
    Settled d (Attempt.ofDesign question : Attempt NameTables α) := by
  cases question with
  | ok a => exact pure a
  | error e => exact fail (.design e)

theorem ofChecked {question : Except Overflow α}
    (h : ∀ o, question = .error o → ¬d.Measurable) :
    Settled d (Attempt.ofChecked question : Attempt NameTables α) := by
  cases question with
  | ok a => exact pure a
  | error o => exact ⟨.error (.overflow o), fun _ _ => h o rfl, fun T => ⟨_, T, rfl⟩⟩

/-- The second step may use that the first one answered. -/
theorem bind_of (hx : Settled d x) (hf : ∀ a, (∃ t t', x t = .ok a t') → Settled d (f a)) :
    Settled d (x >>= f) := by
  obtain ⟨r, hexc, hr⟩ := hx
  cases r with
  | error e =>
    refine ⟨.error e, fun o ho => hexc o (by cases ho; rfl), fun T => ?_⟩
    obtain ⟨t', T', h⟩ := hr T
    exact ⟨t', T', EStateM.bind_of_error h⟩
  | ok a =>
    obtain ⟨t₀, -, h₀⟩ := hr (.empty d)
    obtain ⟨r', hexc', hr'⟩ := hf a ⟨_, t₀, h₀⟩
    refine ⟨r', hexc', fun T => ?_⟩
    obtain ⟨t', T', h⟩ := hr T
    obtain ⟨t'', T'', h'⟩ := hr' T'
    exact ⟨t'', T'', (EStateM.bind_of_ok h).trans h'⟩

theorem bind (hx : Settled d x) (hf : ∀ a, Settled d (f a)) : Settled d (x >>= f) :=
  hx.bind_of fun a _ => hf a

theorem lookup (d : Design) (m : ModuleId) (name : String) :
    Settled d (NameTables.lookup d m name) := by
  cases hes : NameTables.entries d m with
  | ok es =>
    refine ⟨.ok (OrderedMap.lookup name es), nofun, fun T => ?_⟩
    rcases NameTables.lookup_cases T m name with ⟨es', t', hes', h, T'⟩ | ⟨e, hes', -⟩
    · obtain rfl := Except.ok.inj (hes.symm.trans hes')
      exact ⟨t', T', h⟩
    · rw [hes] at hes'
      cases hes'
  | error e =>
    refine ⟨.error (.failure (.design e)), nofun, fun T => ?_⟩
    rcases NameTables.lookup_cases T m name with ⟨es', t', hes', -⟩ | ⟨e', hes', h⟩
    · rw [hes] at hes'
      cases hes'
    · obtain rfl := Except.error.inj (hes.symm.trans hes')
      exact ⟨_, T, h⟩

/-- The module reached by hops is compared with the next one named. -/
theorem joined {reached : Option ModuleId} {m : ModuleId} {k : PUnit → Attempt NameTables α}
    {refusal : ModuleId → Attempt NameTables α} (hr : ∀ r, Settled d (refusal r))
    (hk : Settled d (k ())) : Settled d (match reached with
      | some r => if r ≠ m then refusal r else k ()
      | _ => k ()) := by
  cases reached with
  | none => exact hk
  | some r =>
    dsimp only
    split
    · exact hr r
    · exact hk

end Settled

namespace TargetPath

theorem findModule_settled (name : String) : Settled d (findModule h text name) := by
  unfold findModule
  split
  · exact .pure _
  · exact .fail _

theorem takeHop_settled (reached : Option ModuleId) (hop : Hop) :
    Settled d (takeHop d h text reached hop) := by
  refine .bind (findModule_settled _) fun m => ?_
  extract_lets go
  have hgo : ∀ u, Settled d (go u) := by
    intro u
    refine .bind (.lookup ..) fun e => ?_
    split
    · refine .bind (.ofDesign _) fun op => ?_
      split
      · exact .pure _
      · exact .fail _
    · exact .fail _
  exact .joined (fun _ => .bind (.ofDesign _) fun _ => .bind (.fail _) hgo) (hgo ())

theorem takeHops_settled (reached : Option ModuleId) (hops : List Hop) :
    Settled d (takeHops d h text reached hops) := by
  induction hops generalizing reached with
  | nil => exact .pure _
  | cons hop hops ih => exact .bind (takeHop_settled ..) fun _ => .bind (ih _) fun _ => .pure _

theorem findEntity_settled (m : ModuleId) (moduleName : String) (name : Option String) :
    Settled d (findEntity d text m moduleName name) := by
  cases name with
  | none => exact .pure _
  | some name =>
    refine .bind (.lookup ..) fun e => ?_
    split
    · exact .pure _
    · exact .fail _

theorem selectPort_settled (e : Entity) (accesses : List Access) :
    Settled d (selectPort d text e accesses) := by
  unfold selectPort
  split
  · refine .bind (.ofDesign _) fun op => ?_
    split
    · refine .bind (.ofDesign _) fun x => ?_
      split
      · exact .pure _
      · exact .fail _
    · exact .fail _
    · exact .pure _
  · exact .pure _

theorem findPart_settled (e : Entity) (accesses : List Access) :
    Settled d (findPart d text e accesses) := by
  cases accesses with
  | nil => exact .pure _
  | cons a accesses =>
    refine .bind_of (.ofDesign _) fun t ⟨_, _, ht⟩ => ?_
    cases t with
    | none => exact .fail _
    | some t =>
      refine .bind (.ofChecked fun o ho M => ?_) fun n => ?_
      · have H := M.entityType (Attempt.eq_ok_of_ofDesign ht)
        obtain ⟨r, hr⟩ := SignalType.fieldId?_ok H (a :: accesses)
        rw [hr] at ho
        cases ho
      · split
        · exact .fail _
        · exact .pure _

/-- What a path resolves to, or why it does not, is settled. -/
theorem resolve_settled (text : String) (p : TargetPath) : Settled d (p.resolve d h text) := by
  unfold resolve
  extract_lets go
  have hgo : ∀ u, Settled d (go u) := by
    intro u
    simp -zeta only [go]
    split
    · exact .pure _
    · refine .bind (takeHops_settled ..) fun ⟨route, reached⟩ => ?_
      refine .bind (findModule_settled _) fun m => ?_
      extract_lets go
      have hgo : ∀ u, Settled d (go u) := fun _ => .bind (findEntity_settled ..) fun e =>
        .bind (selectPort_settled ..) fun _ => .bind (findPart_settled ..) fun _ => .pure _
      exact .joined (fun _ => .bind (.ofDesign _) fun _ => .bind (.fail _) hgo) (hgo ())
  split
  · exact .bind (.fail _) hgo
  · exact hgo ()

/-! ### Notes, anchors and symbols play no role -/

section

variable (d h text) (pending : List Note) (attachments : Attachments) (anchors : List Anchor)
  (symbols : NameSupply)

theorem takeHops_annotated (reached : Option ModuleId) (hops : List Hop) :
    takeHops { d with pending, attachments, anchors, symbols } h text reached hops =
      takeHops d h text reached hops := by
  induction hops generalizing reached with
  | nil => rfl
  | cons hop hops ih =>
    unfold takeHops
    simp only [ih]
    rfl

theorem resolve_annotated (p : TargetPath) :
    p.resolve { d with pending, attachments, anchors, symbols } h text = p.resolve d h text := by
  unfold resolve
  simp only [takeHops_annotated]
  rfl

end

end TargetPath

end AnnotatedCircuit
