import AnnotatedCircuit.Proofs.Design.Edits
import AnnotatedCircuit.Proofs.Note.Moving
import AnnotatedCircuit.Proofs.Outcome
import AnnotatedCircuit.Wiring.Realize
import Mathlib.Data.List.Forall2

/-!
# Wiring does not look at notes

Edits and wiring look at no note, anchor or symbol, and notes are only moved or forgotten. So the
wiring takes the same course in two designs that differ in these alone, and where each list of notes
of the one is, up to a relation on notes, a subsequence of that of the other, this is so afterwards
(`realize_matches`).
-/

namespace AnnotatedCircuit

open EStateM (Blind Like)

variable {R : Note → Note → Prop}

namespace Attachments

variable {t t' : Attachments} {o p : OpId}

/-- Each list of notes is, up to a relation, a subsequence of that of the second table. -/
def Within (R : Note → Note → Prop) (t t' : Attachments) : Prop :=
  ∀ e, List.SublistForall₂ R (t.attached e) (t'.attached e)

namespace Within

theorem forgetOp (w : t.Within R t') (o : OpId) : (t.forgetOp o).Within R (t'.forgetOp o) := by
  intro e
  rw [attached_forgetOp, attached_forgetOp]
  split
  · exact .nil
  · exact w e

theorem append {as as' bs bs' : List Note} (h : List.SublistForall₂ R as as')
    (h' : List.SublistForall₂ R bs bs') : List.SublistForall₂ R (as ++ bs) (as' ++ bs') := by
  rw [List.sublistForall₂_iff] at h h' ⊢
  obtain ⟨xs, related, sub⟩ := h
  obtain ⟨ys, related', sub'⟩ := h'
  exact ⟨xs ++ ys, List.rel_append related related', sub.append sub'⟩

theorem moveOp (w : t.Within R t') (o p : OpId) : (t.moveOp o p).Within R (t'.moveOp o p) := by
  intro e
  by_cases h : o = p
  · subst h
    rw [attached_moveOp_self, attached_moveOp_self]
    exact w e
  · rw [attached_moveOp h, attached_moveOp h]
    split
    · exact .nil
    · split
      · exact append (w e) (w _)
      · exact w e

end Within

end Attachments

/-- The designs are the same but for notes, anchors and symbols, and the notes of the first are
within those of the second. -/
def Design.Matches (R : Note → Note → Prop) (d d' : Design) : Prop :=
  ∃ attachments anchors symbols, d' = { d with attachments, anchors, symbols } ∧
    d.attachments.Within R attachments

/-! ### Edits -/

namespace Edit

open Design

variable {α : Type}

theorem blind_ask {question : Design → Except DesignError α}
    (same : ∀ (d : Design) attachments anchors symbols,
      question { d with attachments, anchors, symbols } = question d) :
    Blind (Matches R) (ask question) := by
  have run : ∀ d, ask question d = (question d).leaving d := fun d => by
    rw [ask]
    cases question d <;> rfl
  rintro d _ ⟨attachments, anchors, symbols, rfl, w⟩
  have M : Matches R d { d with attachments, anchors, symbols } := ⟨_, _, _, rfl, w⟩
  rw [run, run, same d attachments anchors symbols]
  cases question d with
  | ok a => exact .ok a M
  | error e => exact .error e M

theorem blind_growPorts (m : ModuleId) (ports : List PortDecl) :
    Blind (Matches R) (growPorts m ports) := by
  rw [growPorts_eq]
  refine .bind (blind_ask fun _ _ _ _ => rfl) fun x => ?_
  rintro d _ ⟨attachments, anchors, symbols, rfl, w⟩
  exact .ok _ ⟨_, _, _, rfl, w⟩

theorem blind_newOp (m : ModuleId) (kind : OpKind) (types : List SignalType) :
    Blind (Matches R) (newOp m kind types) := by
  rw [newOp_eq]
  refine .bind (blind_ask fun _ _ _ _ => rfl) fun _ => ?_
  rintro d _ ⟨attachments, anchors, symbols, rfl, w⟩
  exact .ok _ ⟨_, _, _, rfl, w⟩

theorem blind_newDefinition (m : ModuleId) (kind : OpKind) (type : SignalType) :
    Blind (Matches R) (newDefinition m kind type) := by
  rw [newDefinition_eq]
  refine .bind (blind_ask fun _ _ _ _ => rfl) fun _ => ?_
  rintro d _ ⟨attachments, anchors, symbols, rfl, w⟩
  exact .ok _ ⟨_, _, _, rfl, w⟩

theorem blind_connect (m : ModuleId) (dest src : ValueId) :
    Blind (Matches R) (connect m dest src) :=
  .bind (blind_ask fun _ _ _ _ => rfl) fun _ => .bind (blind_ask fun _ _ _ _ => rfl) fun _ =>
    blind_newOp _ _ _

theorem blind_newConversion (m : ModuleId) (kind : ValueId → OpKind)
    (convert : SignalType → SignalType) (v : ValueId) :
    Blind (Matches R) (newConversion m kind convert v) := by
  refine .bind (blind_ask fun _ _ _ _ => rfl) fun _ =>
    .bind (blind_ask fun _ _ _ _ => rfl) fun t => ?_
  rw [map_eq_pure_bind]
  exact .bind (blind_newDefinition _ _ _) fun r => .pure _

theorem blind_drive (m : ModuleId) (dest src : ValueId) : Blind (Matches R) (drive m dest src) := by
  refine .bind (blind_ask fun _ _ _ _ => rfl) fun destType =>
    .bind (blind_ask fun _ _ _ _ => rfl) fun srcType => ?_
  have rest : ∀ src, Blind (Matches R) (do let _ ← connect m dest src) := fun src =>
    .bind (blind_connect _ _ _) fun _ => .pure _
  split
  · exact .bind (blind_newConversion _ _ _ _) rest
  · exact .bind (blind_newConversion _ _ _ _) rest
  · exact rest src

theorem blind_cloneInstance (o : OpId) (ports : List PortDecl) :
    Blind (Matches R) (cloneInstance o ports) := by
  rw [cloneInstance_eq]
  refine .bind (blind_ask fun _ _ _ _ => rfl) fun op => ?_
  have typed : Blind (Matches R) (ask fun d => op.results.mapM d.valueType) :=
    blind_ask fun _ _ _ _ => rfl
  have copy : ∀ types : List SignalType, Blind (Matches R) (fun d => .ok d.nextOp
      (d.addOp op.parent op.kind (types ++ ports.map (·.type)) (insertBehind o)) : Edit OpId) := by
    rintro types d _ ⟨attachments, anchors, symbols, rfl, w⟩
    exact .ok _ ⟨_, _, _, rfl, w⟩
  split
  · exact .bind (.throw _) fun _ => .bind (blind_ask fun _ _ _ _ => rfl) fun _ =>
      .bind typed copy
  · exact .bind (blind_ask fun _ _ _ _ => rfl) fun _ => .bind typed copy

theorem blind_redirectUses (old new : ValueId) : Blind (Matches R) (redirectUses old new) := by
  refine .bind (blind_ask fun _ _ _ _ => rfl) fun _ =>
    .bind (blind_ask fun _ _ _ _ => rfl) fun x => ?_
  rintro d _ ⟨attachments, anchors, symbols, rfl, w⟩
  exact .ok _ ⟨_, _, _, rfl, w⟩

/-- The notes of an operation are forgotten with it. -/
theorem blind_removeOp (o : OpId) : Blind (Matches R) (removeOp o) := by
  rw [removeOp_eq]
  refine .bind (blind_ask fun _ _ _ _ => rfl) fun op =>
    .bind (blind_ask fun _ _ _ _ => rfl) fun _ => ?_
  rintro d _ ⟨attachments, anchors, symbols, rfl, w⟩
  exact .ok _ ⟨_, _, _, rfl, w.forgetOp o⟩

end Edit

/-! ### Planning -/

namespace Wiring

open Design

theorem planRequest_annotated (d : Design) (attachments : Attachments) (anchors : List Anchor)
    (symbols : NameSupply) (n : Nat) (r : WireRequest) :
    planRequest { d with attachments, anchors, symbols } n r = planRequest d n r := rfl

/-- What is planned does not depend on notes, anchors and symbols. -/
theorem plan_matches {d d' : Design} (M : d.Matches R d') (t : PathTable) (rs : List WireRequest) :
    plan d' t rs = plan d t rs := by
  obtain ⟨attachments, anchors, symbols, rfl, -⟩ := M
  unfold plan
  generalize Planning.mk t .empty = s
  generalize 0 = n
  induction rs generalizing n s with
  | nil => rfl
  | cons r rs ih =>
    rw [planFrom, planFrom, planRequest_annotated]
    split <;> simp only [ih]

/-! ### Carrying out a plan -/

/-- The states are the same but for designs that match. -/
def Realizing.Matches (R : Note → Note → Prop) (s s' : Realizing) : Prop :=
  ∃ d, s' = { s with design := d } ∧ s.design.Matches R d

namespace Realize

variable {α : Type}

theorem blind_edit {x : Edit α} (hx : Blind (Matches R) x) :
    Blind (Realizing.Matches R) (edit x) := by
  rintro s _ ⟨d, rfl, M⟩
  have like := hx s.design d M
  rw [edit, edit]
  dsimp only
  generalize x s.design = r, x d = r' at like
  cases like with
  | ok a M' => exact .ok a ⟨_, rfl, M'⟩
  | error e M' => exact .error e ⟨_, rfl, M'⟩

theorem blind_ask {question : Design → Except DesignError α}
    (same : ∀ (d : Design) attachments anchors symbols,
      question { d with attachments, anchors, symbols } = question d) :
    Blind (Realizing.Matches R) (ask question) :=
  blind_edit (Edit.blind_ask same)

theorem blind_recorded {x : Realize Unit} (hx : Blind (Realizing.Matches R) x) :
    Blind (Realizing.Matches R) (recorded x) := by
  intro s s' M
  have like := hx s s' M
  rw [recorded, recorded]
  generalize x s = r, x s' = r' at like
  cases like with
  | ok _ M' => exact .ok () M'
  | error e M' =>
    obtain ⟨d, rfl, M'⟩ := M'
    exact .ok () ⟨d, rfl, M'⟩

/-- A change of the other parts of the state. -/
theorem blind_modify {f : Realizing → Realizing}
    (hf : ∀ s d, f { s with design := d } = { f s with design := d })
    (same : ∀ s, (f s).design = s.design) : Blind (Realizing.Matches R) (modify f : Realize Unit) := by
  refine .modify ?_
  rintro s _ ⟨d, rfl, M⟩
  exact ⟨d, hf s d, (same s).symm ▸ M⟩

/-- What is read is not the design. -/
theorem blind_get_bind {f : Realizing → Realize α}
    (same : ∀ s d, f { s with design := d } = f s)
    (hf : ∀ s, Blind (Realizing.Matches R) (f s)) : Blind (Realizing.Matches R) (get >>= f) := by
  refine .get_bind ?_ hf
  rintro s _ ⟨d, rfl, -⟩
  exact (same s d).symm

theorem blind_countConnection : Blind (Realizing.Matches R) countConnection :=
  blind_modify (fun _ _ => rfl) fun _ => rfl

theorem blind_current (e : Endpoint) : Blind (Realizing.Matches R) (current e) :=
  blind_get_bind (fun _ _ => rfl) fun _ => .pure _

theorem blind_endpoint (m : ModuleId) (c : ModuleChanges) (request : Nat) :
    Blind (Realizing.Matches R) (endpoint m c request) := by
  unfold endpoint
  split
  · exact blind_current _
  · refine .get_bind ?_ fun _ => .throw _
    rintro s _ ⟨_, rfl, _, _, _, rfl, -⟩
    rfl

theorem blind_joinPort (m : ModuleId) (c : ModuleChanges) (p : PlannedPort) (port : ValueId) :
    Blind (Realizing.Matches R) (joinPort m c p port) := by
  refine .bind (blind_endpoint _ _ _) fun e => ?_
  split <;> exact .bind (blind_edit (Edit.blind_drive _ _ _)) fun _ => blind_countConnection

theorem blind_close (m : ModuleId) (c : ModuleChanges) (e : Endpoint) (request : Nat) :
    Blind (Realizing.Matches R) (close m c e request) := by
  refine .bind (blind_current e) fun e => .bind (blind_endpoint _ _ _) fun first => ?_
  split <;> exact .bind (blind_edit (Edit.blind_drive _ _ _)) fun _ => blind_countConnection

theorem blind_redirectResult (old new : ValueId) :
    Blind (Realizing.Matches R) (redirectResult old new) :=
  .bind (blind_edit (Edit.blind_redirectUses _ _)) fun _ =>
    blind_modify (fun _ _ => rfl) fun _ => rfl

theorem blind_replaceInPaths (old new : OpId) :
    Blind (Realizing.Matches R) (replaceInPaths old new) := by
  rintro s _ ⟨d, rfl, M⟩
  rw [replaceInPaths, replaceInPaths]
  dsimp only
  cases s.table.replace old new with
  | ok table => exact .ok () ⟨d, rfl, M⟩
  | error e => exact .error e ⟨d, rfl, M⟩

/-- The notes of an instance move to its replacement. -/
theorem blind_reissue (ports : List PlannedPort) (site : Site) :
    Blind (Realizing.Matches R) (reissue ports site) := by
  refine .bind (blind_ask fun _ _ _ _ => rfl) fun old =>
    .bind (blind_edit (Edit.blind_cloneInstance _ _)) fun copy => ?_
  refine .bind (blind_ask fun _ _ _ _ => rfl) fun new =>
    .bind (.forM (fun _ => blind_redirectResult _ _) _) fun _ => ?_
  have moved : Blind (Realizing.Matches R) (modify fun s => { s with design := { s.design with
      attachments := s.design.attachments.moveOp site.op copy } } : Realize Unit) := by
    refine .modify ?_
    rintro s _ ⟨_, rfl, attachments, anchors, symbols, rfl, w⟩
    exact ⟨_, rfl, _, _, _, rfl, w.moveOp site.op copy⟩
  refine .bind moved fun _ => .bind (blind_edit (Edit.blind_removeOp _)) fun _ => ?_
  refine .bind (blind_replaceInPaths _ _) fun _ => ?_
  exact blind_modify (fun _ _ => rfl) fun _ => rfl

theorem blind_realizeModule (m : ModuleId) (c : ModuleChanges) :
    Blind (Realizing.Matches R) (realizeModule m c) := by
  have joined : Blind (Realizing.Matches R) (joinPorts m c) := by
    refine .bind (blind_edit (Edit.blind_growPorts _ _)) fun ports => ?_
    refine .bind (blind_modify (fun _ _ => rfl) fun _ => rfl) fun _ => ?_
    exact .forM (fun _ => blind_recorded (blind_joinPort _ _ _ _)) _
  have closed : Blind (Realizing.Matches R) (closeAll m c) :=
    .forM (fun _ => blind_recorded (blind_close _ _ _ _)) _
  refine .bind joined fun _ => .bind closed fun _ => ?_
  unfold reissueAll
  split
  · exact .pure _
  · exact blind_get_bind (fun _ _ => rfl) fun s =>
      .forM (fun _ => blind_recorded (blind_reissue _ _)) _

theorem blind_visit (m : ModuleId) : Blind (Realizing.Matches R) (visit m) := by
  refine blind_get_bind (fun _ _ => rfl) fun s => ?_
  split
  · exact .pure _
  · refine .bind (blind_modify (fun _ _ => rfl) fun _ => rfl) fun _ => ?_
    split
    · exact .pure _
    · exact blind_recorded (blind_realizeModule _ _)

end Realize

/-- The wiring takes the same course in designs that match, and leaves designs that match. -/
theorem realize_matches {d d' : Design} (M : d.Matches R d') (t : PathTable) (p : Plan) :
    (realize d t p).Matches R (realize d' t p) := by
  have like := Blind.forM Realize.blind_visit t.hierarchy.childrenFirst _ _
    (show Realizing.Matches R ⟨d, t, p, .empty, {}, []⟩ ⟨d', t, p, .empty, {}, []⟩ from
      ⟨d', rfl, M⟩)
  rw [realize, realize]
  generalize t.hierarchy.childrenFirst.forM Realize.visit ⟨d, t, p, .empty, {}, []⟩ = r,
    t.hierarchy.childrenFirst.forM Realize.visit ⟨d', t, p, .empty, {}, []⟩ = r' at like
  cases like with
  | ok _ M' => exact M'
  | error e M' =>
    obtain ⟨d₁, rfl, M'⟩ := M'
    exact ⟨d₁, rfl, M'⟩

end Wiring

end AnnotatedCircuit
