import AnnotatedCircuit.Proofs.Wiring.Targets

/-!
# Wiring keeps the attached notes

When an instance is replaced, its notes and those of its ports move to the replacement, and nothing
else touches them. So carrying out any plan leaves every entity its list of notes, up to the
instances that were replaced (`attached_realize`).
-/

namespace AnnotatedCircuit

namespace Design

variable {d d' d'' : Design} {f g : OpId → OpId} {e : Entity} {o : OpId}

/-- The operation of an entity is there. -/
def Live (d : Design) (e : Entity) : Prop := ∀ o, e.op? = some o → ∃ op, d.op? o = some op

/-- Notes are attached to nothing that was removed. -/
def Tended (d : Design) : Prop := ∀ e ∈ d.attachments.table.keys, d.Live e

/-- Every entity hands its notes on to its successor. -/
structure Carries (d d' : Design) (f : OpId → OpId) : Prop where
  listed : ∀ e ∈ d'.attachments.table.keys, ∃ a ∈ d.attachments.table.keys, a.mapOp f = e
  attached : ∀ {e}, d.Live e → d'.attachments.attached (e.mapOp f) = d.attachments.attached e
  size : d'.attachments.size = d.attachments.size

theorem Continues.live (C : d.Continues d' f) (L : d.Live e) : d'.Live (e.mapOp f) := by
  intro o ho
  rw [Entity.op?_mapOp] at ho
  obtain ⟨p, hp, rfl⟩ := Option.map_eq_some_iff.mp ho
  obtain ⟨op, hop⟩ := L p hp
  obtain ⟨op', hop', -⟩ := C.op hop
  exact ⟨op', hop'⟩

theorem Tended.attached (N : d.Tended) (h : ¬d.Live e) : d.attachments.attached e = [] :=
  Attachments.attached_of_not_mem fun he => h (N e he)

namespace Carries

theorem of_eq (h : d'.attachments = d.attachments) : d.Carries d' id where
  listed e he := ⟨e, h ▸ he, e.mapOp_id⟩
  attached _ := by rw [h, Entity.mapOp_id]
  size := by rw [h]

theorem trans (C : d.Continues d' f) (A : d.Carries d' f) (A' : d'.Carries d'' g) :
    d.Carries d'' (g ∘ f) where
  listed e he := by
    obtain ⟨b, hb, rfl⟩ := A'.listed e he
    obtain ⟨a, ha, rfl⟩ := A.listed b hb
    exact ⟨a, ha, (Entity.mapOp_mapOp ..).symm⟩
  attached L := by rw [← Entity.mapOp_mapOp, A'.attached (C.live L), A.attached L]
  size := A'.size.trans A.size

theorem tended (A : d.Carries d' f) (C : d.Continues d' f) (N : d.Tended) : d'.Tended := by
  intro e he
  obtain ⟨a, ha, rfl⟩ := A.listed e he
  exact C.live (N a ha)

theorem congr (A : d.Carries d' f) (N : d.Tended)
    (h : ∀ {o op}, d.op? o = some op → g o = f o) : d.Carries d' g := by
  have same : ∀ {e}, d.Live e → e.mapOp g = e.mapOp f := fun L =>
    Entity.mapOp_congr fun o ho => h (L o ho).choose_spec
  refine ⟨fun e he => ?_, fun L => same L ▸ A.attached L, A.size⟩
  obtain ⟨a, ha, rfl⟩ := A.listed e he
  exact ⟨a, ha, same (N a ha)⟩

end Carries

/-- The notes of an operation move to one that is new. -/
theorem carries_moveOp {op : Op} (N : d.Tended) (ho : d.op? o = some op)
    (h : d'.attachments = d.attachments.moveOp o d.nextOp) :
    d.Carries d' (exchange o d.nextOp) := by
  have hne := ne_nextOp ho
  have unlisted : ∀ e : Entity, e.op? = some d.nextOp → ¬d.Live e := fun e he L => by
    obtain ⟨op, hop⟩ := L _ he
    exact ne_nextOp hop rfl
  have other : ∀ {e : Entity}, e.op? ≠ some o → e.mapOp (exchange o d.nextOp) = e := fun he =>
    Entity.mapOp_eq_self fun p hp => exchange_of_ne fun eq => he (eq ▸ hp)
  have moved : ∀ {e : Entity}, e.op? = some o →
      e.mapOp (exchange o d.nextOp) = e.withOp d.nextOp := fun he => by
    rw [Entity.mapOp_eq_withOp he, exchange_self]
  refine ⟨fun e he => ?_, fun {e} L => ?_, ?_⟩ <;> rw [h] at *
  · obtain ⟨hnot, he | ⟨a, ha, hao, rfl⟩⟩ := Attachments.mem_keys_moveOp hne he
    · exact ⟨e, he, other hnot⟩
    · exact ⟨a, ha, moved hao⟩
  · rw [Attachments.attached_moveOp hne]
    by_cases he : e.op? = some o
    · have hnew := Attachments.op?_withOp_of_op? he d.nextOp
      rw [moved he, if_neg fun hx => Attachments.ne_of_op? hne hx hnew rfl, if_pos hnew,
        N.attached (unlisted _ hnew), Entity.withOp_withOp, Entity.withOp_of_op? he, List.nil_append]
    · rw [other he, if_neg he, if_neg fun hx => unlisted e hx L]
  · exact Attachments.size_moveOp ..

theorem Leaf.attachments (h : d.Leaf d') : d'.attachments = d.attachments := by
  cases h <;> rfl

theorem Filled.attachments (h : d.Filled d') : d'.attachments = d.attachments := by
  induction h with
  | refl => rfl
  | tail _ h ih => exact h.attachments.trans ih

end Design

namespace Wiring

open Design

variable {d : Design} {h : Hierarchy} {m : ModuleId} {s s' : Realizing}
  {ports : List PlannedPort} {sites : List Site}

namespace Realize

theorem Replaces.carries (R : Replaces ports sites s s') (N : s.design.Tended) :
    ∃ f, s.design.Continues s'.design f ∧ s.design.Carries s'.design f := by
  induction R with
  | nil s => exact ⟨id, .refl _, .of_eq rfl⟩
  | cons _ first _ ih =>
    obtain ⟨ts, htypes, hts⟩ := first.typed
    have C := first.design.continues first.live first.child (htypes ▸ List.prefix_append ..) hts
    have A := carries_moveOp N first.live first.attachments
    obtain ⟨f, C', A'⟩ := ih (A.tended C N)
    exact ⟨_, C.trans C', .trans C A A'⟩

theorem Visits.carries (V : Visits m s s') (N : s.design.Tended) :
    ∃ f, s.design.Continues s'.design f ∧ s.design.Carries s'.design f := by
  cases V with
  | nothing => exact ⟨id, .refl _, .of_eq rfl⟩
  | @work x s₁ _ found filled replaced =>
    have C := (continues_enterPorts s.design m ..).trans filled.design.continues
    have A : s.design.Carries s₁.design (id ∘ id) := .of_eq filled.design.attachments
    obtain ⟨f, C', A'⟩ := replaced.carries (A.tended C N)
    exact ⟨_, C.trans C', .trans C A A'⟩

end Realize

theorem realize_carries {t : PathTable} (S : d.Sound fun _ => 0) (N : d.Tended)
    (ht : t.hierarchy = d.hierarchy) (T : t.Right) (p : Plan) :
    d.Carries (realize d t p).design (d.standIn (realize d t p).design) := by
  have := realize_keeps (Q := fun _ s => ∃ f, d.Continues s.design f ∧ d.Carries s.design f)
    S ht T p ⟨id, .refl d, .of_eq rfl⟩ fun _ _ V ⟨f, C, A⟩ => by
      obtain ⟨g, C', A'⟩ := V.carries (A.tended C N)
      exact ⟨_, C.trans C', .trans C A A'⟩
  obtain ⟨f, C, A⟩ := this
  exact A.congr N (C.standIn_eq S.coherent)

/-- Whatever a plan asks for, the notes of every entity stay as they are and in their order, with
those of a replaced instance and of its ports on what replaced it. No note is lost or added, and
none is left on an operation that was removed. -/
theorem attached_realize (H : d.Built) (hd : d.check = .ok ()) (hh : Hierarchy.ofDesign d = .ok h)
    (N : d.Tended) (ms : List ModuleId) (plan : Plan) :
    ∃ d', (realize d ((PathTable.ofHierarchy h).asked ms) plan).design = d' ∧
      d.Continues d' (d.standIn d') ∧
      (∀ e, (∀ o, e.op? = some o → o.index < d.ops.length) →
        d'.attachments.attached (e.mapOp (d.standIn d')) = d.attachments.attached e) ∧
      (∀ e ∈ d'.attachments.table.keys, ∃ a ∈ d.attachments.table.keys,
        a.mapOp (d.standIn d') = e) ∧
      d'.attachments.size = d.attachments.size ∧ d'.Tended := by
  have C := H.coherent
  obtain ⟨hv, hf⟩ := (check_eq_ok_iff C).mp hd
  have S : d.Sound fun _ => 0 := ⟨C, hv, hf⟩
  obtain ⟨ht, T⟩ := table_of_design C hh ms
  have on := realize_continues S ht T plan
  have A := realize_carries S N ht T plan
  refine ⟨_, rfl, on, fun e he => ?_, A.listed, A.size, A.tended on N⟩
  by_cases L : d.Live e
  · exact A.attached L
  · -- Nothing is attached to a removed operation, before or afterwards.
    have gone : ∀ o, e.op? = some o → d.op? o = none := fun o ho => by
      by_contra hop
      obtain ⟨op, hop⟩ := Option.ne_none_iff_exists'.mp hop
      exact L fun p hp => ⟨op, Option.some.inj (ho.symm.trans hp) ▸ hop⟩
    rw [Entity.mapOp_eq_self fun o ho => standIn_of_gone _ (gone o ho), N.attached L]
    refine (A.tended on N).attached fun L' => L fun o ho => ?_
    obtain ⟨op, hop⟩ := L' o ho
    rw [on.gone (he o ho) (gone o ho)] at hop
    cases hop

/-- A top module with an instance that has a port, and notes on both. -/
def notedInstance : Design := (Design.new "Top").edited
  [.newModule "A" .defined, .newPort ⟨1⟩ ⟨"x", .uint (some 1), .input⟩, .instantiate ⟨0⟩ "a" ⟨1⟩,
    .setNotes [] ⟨.ofList [(.op ⟨0⟩, [.ofClass "first", .ofClass "second"]),
      (.port (.inst ⟨0⟩) 0, [.ofClass "third"])]⟩]

theorem attached_realize_notedInstance : notedInstance.Built ∧ notedInstance.check = .ok () ∧
    Hierarchy.ofDesign notedInstance = .ok notedInstance.hierarchy ∧ notedInstance.Tended ∧
    ∃ d', (realize notedInstance ((PathTable.ofHierarchy notedInstance.hierarchy).asked [⟨1⟩])
        unfitPlan).design = d' ∧ notedInstance.standIn d' ⟨0⟩ = ⟨2⟩ ∧
      d'.attachments.attached (.op ⟨2⟩) = [.ofClass "first", .ofClass "second"] ∧
      d'.attachments.attached (.port (.inst ⟨2⟩) 0) = [.ofClass "third"] ∧
      d'.attachments.size = 3 ∧ d'.Tended := by
  have H : notedInstance.Built := (Built.new "Top").edited _
  have hd : notedInstance.check = .ok () := by decide +kernel
  have hh : Hierarchy.ofDesign notedInstance = .ok notedInstance.hierarchy := by decide +kernel
  have N : notedInstance.Tended := by
    intro e he o ho
    obtain rfl : o = ⟨0⟩ := by
      have hkeys : e ∈ [Entity.op ⟨0⟩, .port (.inst ⟨0⟩) 0] := he
      rcases List.mem_pair.mp hkeys with rfl | rfl <;> exact (Option.some.inj ho).symm
    exact ⟨_, rfl⟩
  obtain ⟨d', rfl, -, attached, -, size, tended⟩ := attached_realize H hd hh N [⟨1⟩] unfitPlan
  have stands : notedInstance.standIn (realize notedInstance
      ((PathTable.ofHierarchy notedInstance.hierarchy).asked [⟨1⟩]) unfitPlan).design ⟨0⟩ = ⟨2⟩ := by
    decide +kernel
  have old : ∀ o : OpId, some ⟨0⟩ = some o → o.index < notedInstance.ops.length := by
    rintro _ ⟨⟩
    decide
  refine ⟨H, hd, hh, N, _, rfl, stands, ?_, ?_, size, tended⟩
  · exact stands ▸ attached (.op ⟨0⟩) old
  · exact stands ▸ attached (.port (.inst ⟨0⟩) 0) old

end Wiring

end AnnotatedCircuit
