import AnnotatedCircuit.Proofs.Design.Stored
import AnnotatedCircuit.Proofs.Wiring.PlanBounds

/-!
# The types of planned ports

A planned port has the type of the sink of its request, or the reference type of that: like all
types of values it fits into its written form (`plan_typed`).
-/

namespace AnnotatedCircuit.Wiring

open Design

variable {α β : Type} {d : Design} {p : Plan} {s s' : Planning} {x : Attempt Planning α}
  {f : α → Attempt Planning β} {type : SignalType}

/-- The types of all planned ports fit into their written form. -/
def Plan.Typed (p : Plan) : Prop := ∀ m, ∀ q ∈ (p.changesOf m).ports, q.port.type.Writable

/-- Endpoints play no role. -/
theorem Plan.Typed.modify (T : p.Typed) (m : ModuleId) {g : ModuleChanges → ModuleChanges}
    (hg : ∀ c, (g c).ports = c.ports) : (p.modify m g).Typed := by
  intro m' q hq
  rw [Plan.changesOf_modify] at hq
  split at hq
  · exact T m q (hg _ ▸ hq)
  · exact T m' q hq

theorem Plan.Typed.withPort (T : p.Typed) {q : PlannedPort} (typed : q.port.type.Writable)
    (m : ModuleId) (supply : NameSupply) : (p.withPort m supply q).Typed := by
  intro m' q' hq
  rw [Plan.changesOf_withPort] at hq
  split at hq
  · rcases List.mem_append.mp hq with hq | hq
    · exact T m q' hq
    · cases List.mem_singleton.mp hq
      exact typed
  · exact T m' q' hq

/-- A step of planning, whether it succeeds or not, that plans ports with such types only. -/
structure Types (x : Attempt Planning α) : Prop where
  typed : ∀ s, s.plan.Typed → (x.after s).plan.Typed

namespace Types

theorem pure (a : α) : Types (Pure.pure a : Attempt Planning α) := ⟨fun _ => id⟩

theorem fail (e : LowerError) : Types (Attempt.fail e : Attempt Planning α) := ⟨fun _ => id⟩

theorem ofDesign (question : Except DesignError α) :
    Types (Attempt.ofDesign question : Attempt Planning α) := by
  cases question with
  | ok a => exact pure a
  | error e => exact fail (.design e)

/-- The second step may use that the first one answered. -/
theorem bind_of (hx : Types x) (hf : ∀ {s a s'}, x s = .ok a s' → Types (f a)) :
    Types (x >>= f) := ⟨fun s T =>
  EStateM.after_bind (P := fun s : Planning => s.plan.Typed) (hx.typed s T) fun _ s' h =>
    (hf h).typed s' (EStateM.after_of_ok h ▸ hx.typed s T)⟩

theorem bind (hx : Types x) (hf : ∀ a, Types (f a)) : Types (x >>= f) := hx.bind_of fun _ => hf _

theorem record (m : ModuleId) (n : Nat) (e : Endpoint) : Types (changeModule m (·.record n e)) :=
  ⟨fun _ T => T.modify m fun _ => ModuleChanges.ports_record ..⟩

theorem onlyPath (n : Nat) (m : ModuleId) : Types (onlyPath d n m) := by
  refine bind ⟨fun _ => id⟩ fun ps => ?_
  rcases ps with _ | ⟨p, _ | ⟨q, ps⟩⟩
  · exact (ofDesign _).bind fun _ => fail _
  · exact pure p
  · exact (ofDesign _).bind fun _ => fail _

variable (typed : type.Writable)
include typed

theorem planPort (n : Nat) (hint : String) (direction : Direction) (o : OpId) :
    Types (planPort d n hint type direction o) := by
  refine ⟨fun s T => ?_⟩
  rcases planPort_outcome d n hint type direction o s with ⟨site, _, name, supply, -, -, h⟩ | h
  · rw [h]
    exact T.withPort typed site.child supply
  · rw [h]
    exact T

theorem planPorts (n : Nat) (hint : String) (direction : Direction) (path : InstPath) :
    Types (planPorts d n hint type direction path) :=
  ⟨fun _ => EStateM.after_forM (P := fun s : Planning => s.plan.Typed)
    (fun o s => (planPort typed n hint direction o).typed s) path⟩

end Types

theorem Types.planRequest (W : d.Stored) (n : Nat) (r : WireRequest) :
    Types (planRequest d n r) := by
  refine (ofDesign _).bind fun a => (ofDesign _).bind fun b => ?_
  refine (onlyPath n a).bind fun source => (onlyPath n b).bind fun sink => ?_
  refine bind (x := get) ⟨fun _ => id⟩ fun s => (ofDesign _).bind fun w => ?_
  refine (ofDesign _).bind_of fun {_ t _} ht => ?_
  obtain ⟨a, ha, rfl⟩ := valueType_eq_ok_iff.mp (Attempt.eq_ok_of_ofDesign ht)
  have typed : (if r.asRef then a.type.toRef else a.type).Writable := by
    split
    · exact (W.types ha).toRef
    · exact W.types ha
  refine (record ..).bind fun _ => (record ..).bind fun _ => ?_
  exact (planPorts typed ..).bind fun _ => planPorts typed ..

theorem planFrom_typed (W : d.Stored) {n : Nat} {rs : List WireRequest} {errors : List LowerError}
    (T : s.plan.Typed) (h : planFrom d n rs s = .ok (s', errors)) : s'.plan.Typed := by
  induction rs generalizing n s errors with
  | nil =>
    cases h
    exact T
  | cons r rs ih =>
    have T' := (Types.planRequest W n r).typed s T
    rw [planFrom] at h
    rw [EStateM.after] at T'
    split at h
    · rename_i hr
      rw [hr] at T'
      exact ih T' h
    · rename_i hr
      rw [hr] at T'
      obtain ⟨⟨s₁, es⟩, h₁, e⟩ := Checked.bind_eq_ok_iff.mp h
      cases e
      exact ih T' h₁
    · cases h

theorem plan_typed (W : d.Stored) {t : PathTable} {rs : List WireRequest}
    {errors : List LowerError} (h : plan d t rs = .ok (s, errors)) : s.plan.Typed :=
  planFrom_typed W (fun _ _ hq => absurd hq List.not_mem_nil) h

end AnnotatedCircuit.Wiring
