import AnnotatedCircuit.Proofs.Wiring.Progress

/-!
# Joining and closing linked endpoints

A join or a closing between endpoints that are attached to a module succeeds. A new port that is
joined with an endpoint of its own role is linked as that endpoint is (`joinPort_ok`), and closing a
request between endpoints of different roles makes its source drive its sink (`close_ok`).
-/

namespace AnnotatedCircuit.Wiring.Realize

open Design

variable {α : Type} {rs : List WireRequest} {s s' s'' : Realizing} {m : ModuleId} {c : ModuleChanges}
  {n : Nat} {e f : Endpoint} {lag : OpId → Nat} {dest src port : ValueId} {p : PlannedPort}
  {τ : ValueId → ValueId}

/-- The source of a request drives its sink. -/
def Joined (rs : List WireRequest) (s : Realizing) (n : Nat) : Prop :=
  ∃ r, rs[n]? = some r ∧ s.design.Drives (follow s.renames r.source) (follow s.renames r.sink)

theorem Joined.move (M : Moves τ s s') (J : Joined rs s n) : Joined rs s' n := by
  obtain ⟨r, hr, h⟩ := J
  exact ⟨r, hr, by rw [M.follow, M.follow]; exact M.drives h⟩

theorem moves_of_filled (F : s.Filled s') : Moves id s s' :=
  moves_of_extends F.design.extension F.renames

/-- A step that succeeds, enters operations only, and makes a number of connections. -/
structure Fills (x : Realize Unit) (k : Nat) (s s' : Realizing) : Prop where
  ok : x s = .ok () s'
  filled : s.Filled s'
  errors : s'.errors = s.errors
  counts : s'.counts = { s.counts with connections := s.counts.connections + k }

theorem drive_count_ok (S : s.Sound lag) (hd : s.design.valueModule dest = .ok m)
    (hs : s.design.valueModule src = .ok m) :
    ∃ s', Fills (edit (Edit.drive m dest src) >>= fun _ => countConnection) 1 s s' ∧
      s'.design.Drives src dest := by
  obtain ⟨d', h, F, hdrive⟩ := Edit.drive_ok S.design hd hs
  exact ⟨_, ⟨EStateM.bind_of_ok (edit_of_ok h), ⟨F, rfl, rfl, rfl⟩, rfl, rfl⟩, hdrive⟩

theorem endpoint_ok (hf : c.endpoints.find? n = some f) (m : ModuleId) (s : Realizing) :
    endpoint m c n s = .ok { f with value := follow s.renames f.value } s := by
  unfold endpoint
  rw [hf]
  rfl

theorem Linked.forward {v w : ValueId} (h : Linked rs s n .source v) (hd : s.design.Drives v w) :
    Linked rs s n .source w := by
  obtain ⟨r, hr, h⟩ := h
  exact ⟨r, hr, Relation.ReflTransGen.trans h hd⟩

theorem Linked.backward {v w : ValueId} (h : Linked rs s n .sink w) (hd : s.design.Drives v w) :
    Linked rs s n .sink v := by
  obtain ⟨r, hr, h⟩ := h
  exact ⟨r, hr, Relation.ReflTransGen.trans hd h⟩

theorem Linked.join {v w : ValueId} (h : Linked rs s n .source v) (h' : Linked rs s n .sink w)
    (hd : s.design.Drives v w) : Joined rs s n := by
  obtain ⟨r, hr, h⟩ := h.forward hd
  obtain ⟨r', hr', h'⟩ := h'
  rw [hr] at hr'
  cases hr'
  exact ⟨r, hr, Relation.ReflTransGen.trans h h'⟩

theorem joinPort_ok (S : s.Sound lag) (hf : c.endpoints.find? p.request = some e)
    (A : Attached rs s m p.request e) (hrole : e.role = roleOfResult p.port.direction)
    (hp : s.design.valueModule port = .ok m) : ∃ s', Fills (joinPort m c p port) 1 s s' ∧
      Linked rs s' p.request (roleOfResult p.port.direction) port := by
  cases hd : p.port.direction with
  | output =>
    obtain ⟨s', F, hdrive⟩ := drive_count_ok S hp A.visible
    have hl := A.linked.move (moves_of_filled F.filled)
    rw [hrole, hd] at hl
    refine ⟨s', ⟨?_, F.filled, F.errors, F.counts⟩, hl.forward hdrive⟩
    refine (EStateM.bind_of_ok (endpoint_ok hf m s)).trans ?_
    simp only [hd]
    exact F.ok
  | input =>
    obtain ⟨s', F, hdrive⟩ := drive_count_ok S A.visible hp
    have hl := A.linked.move (moves_of_filled F.filled)
    rw [hrole, hd] at hl
    refine ⟨s', ⟨?_, F.filled, F.errors, F.counts⟩, hl.backward hdrive⟩
    refine (EStateM.bind_of_ok (endpoint_ok hf m s)).trans ?_
    simp only [hd]
    exact F.ok

/-- A closing drives the endpoint that is a sink from the first one, or the first one from it. -/
theorem close_eq (hf : c.endpoints.find? n = some f) (m : ModuleId) (e : Endpoint) (s : Realizing) :
    close m c e n s = (match e.role with
      | .sink => edit (Edit.drive m (follow s.renames e.value) (follow s.renames f.value))
        >>= fun _ => countConnection
      | .source => edit (Edit.drive m (follow s.renames f.value) (follow s.renames e.value))
        >>= fun _ => countConnection) s := by
  refine (EStateM.bind_of_ok (x := current e) (a := { e with value := follow s.renames e.value })
    rfl).trans ((EStateM.bind_of_ok (endpoint_ok hf m s)).trans ?_)
  cases e.role <;> rfl

theorem close_ok (S : s.Sound lag) (hf : c.endpoints.find? n = some f) (A : Attached rs s m n e)
    (B : Attached rs s m n f) :
    ∃ s', Fills (close m c e n) 1 s s' ∧ (e.role ≠ f.role → Joined rs s' n) := by
  cases he : e.role with
  | source =>
    obtain ⟨s', F, hdrive⟩ := drive_count_ok S B.visible A.visible
    refine ⟨s', ⟨?_, F.filled, F.errors, F.counts⟩, fun hne => ?_⟩
    · rw [close_eq hf, he]
      exact F.ok
    · have hfr : f.role = .sink := by
        cases h : f.role <;> simp_all
      have hl := A.linked.move (moves_of_filled F.filled)
      have hl' := B.linked.move (moves_of_filled F.filled)
      rw [he] at hl
      rw [hfr] at hl'
      exact hl.join hl' hdrive
  | sink =>
    obtain ⟨s', F, hdrive⟩ := drive_count_ok S A.visible B.visible
    refine ⟨s', ⟨?_, F.filled, F.errors, F.counts⟩, fun hne => ?_⟩
    · rw [close_eq hf, he]
      exact F.ok
    · have hfr : f.role = .source := by
        cases h : f.role <;> simp_all
      have hl := A.linked.move (moves_of_filled F.filled)
      have hl' := B.linked.move (moves_of_filled F.filled)
      rw [he] at hl
      rw [hfr] at hl'
      exact hl'.join hl hdrive

/-- A loop of steps that succeed. What is achieved by one of them is kept by the others. -/
theorem forM_recorded_fills {x : α → Realize Unit} {D : α → Realizing → Prop} {l : List α}
    (keep : ∀ {a s s'}, D a s → s.Filled s' → D a s')
    (step : ∀ a ∈ l, ∀ s', s.Filled s' → ∃ s'', Fills (x a) 1 s' s'' ∧ D a s'') :
    ∃ s', Fills (l.forM fun a => recorded (x a)) l.length s s' ∧ ∀ a ∈ l, D a s' := by
  induction l generalizing s with
  | nil => exact ⟨s, ⟨rfl, .refl s, rfl, rfl⟩, by simp⟩
  | cons a l ih =>
    obtain ⟨s₁, F₁, hD⟩ := step a List.mem_cons_self s (.refl s)
    obtain ⟨s₂, F₂, hl⟩ := ih fun b hb s' F =>
      step b (List.mem_cons_of_mem _ hb) s' (F₁.filled.trans F)
    refine ⟨s₂, ⟨(EStateM.bind_of_ok (recorded_of_ok F₁.ok)).trans F₂.ok, F₁.filled.trans F₂.filled,
      F₂.errors.trans F₁.errors, ?_⟩, List.forall_mem_cons.mpr ⟨keep hD F₂.filled, hl⟩⟩
    rw [F₂.counts, F₁.counts, List.length_cons, Nat.add_assoc, Nat.add_comm 1]

end AnnotatedCircuit.Wiring.Realize
