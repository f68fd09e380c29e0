import AnnotatedCircuit.Proofs.NameSupply

/-!
# What a supply has answered

A request for a name takes the hint, else its first free candidate from a counter on, and runs out of
suffixes exactly if none of these is free (`Exhausted`). Along the calls that lead from the empty
supply (`history`), all candidates below a counter are in use, so what is taken is the first free
candidate of all; and each name that is given is new (`fresh_exact`).
-/

namespace AnnotatedCircuit.NameSupply

variable {s s' : NameSupply} {hint : String} {k : Nat}

/-- Neither the hint nor one of the candidates that are still tried for it is free. -/
def Exhausted (s : NameSupply) (hint : String) : Prop :=
  hint ∈ s.used ∧ ∀ k, s.counter hint ≤ k → k + 1 < Word.limit → candidate hint k ∈ s.used

/-! ### One request -/

theorem freeSuffix_ne_mul {used : List String} : freeSuffix used hint k ≠ .error .mul := by
  intro h
  fun_induction freeSuffix used hint k with
  | case1 _ _ _ ih => exact ih h
  | case2 => cases h
  | case3 => cases h

/-- A request overflows if the supply is exhausted for the hint. Else it answers a name that was not
in use and is from then on; no other name is put in use, and the counters of other hints stay. -/
theorem fresh_outcome (s : NameSupply) (hint : String) :
    (s.Exhausted hint ∧ s.fresh hint = .error .add) ∨
    (¬ s.Exhausted hint ∧ ∃ name s', s.fresh hint = .ok (name, s') ∧ name ∉ s.used ∧
      (∀ a, a ∈ s'.used ↔ a ∈ s.used ∨ a = name) ∧
      ∀ hint' ≠ hint, s'.nextSuffix.find? hint' = s.nextSuffix.find? hint') := by
  by_cases used : hint ∈ s.used
  · rw [fresh_of_used used]
    cases hk : freeSuffix s.used hint (s.counter hint) with
    | error o =>
      refine .inl ⟨⟨used, freeSuffix_error hk⟩, ?_⟩
      cases o with
      | add => rfl
      | mul => exact absurd hk freeSuffix_ne_mul
    | ok k =>
      obtain ⟨hlt, hle⟩ := freeSuffix_lt hk
      have free := (freeSuffix_ok hk).1
      refine .inr ⟨fun E => free (E.2 k hle hlt), _, _, rfl, free, fun a => ?_, fun hint' ne => ?_⟩
      · rw [List.mem_cons, or_comm]
      · rw [OrderedMap.find?_insert, if_neg ne.symm]
  · refine .inr ⟨fun E => used E.1, hint, _, fresh_of_unused used, used, fun a => ?_, fun _ _ => rfl⟩
    rw [List.mem_cons, or_comm]

/-- Where all candidates below a counter are in use, the first free one is taken. -/
theorem Counted.fresh_least {name : String} (C : s.Counted) (used : hint ∈ s.used)
    (h : s.fresh hint = .ok (name, s')) : ∃ k, name = candidate hint k ∧
      candidate hint k ∉ s.used ∧ ∀ i < k, candidate hint i ∈ s.used := by
  obtain ⟨unused, -⟩ | ⟨-, k, hk, rfl, -⟩ := cases_of_fresh h
  · exact absurd used unused
  · exact ⟨k, rfl, (freeSuffix_ok hk).1, fun i => C.freeSuffix_least hk⟩

/-! ### Histories -/

/-- A call to a supply. -/
inductive Call where
  | add (name : String)
  | request (hint : String)

/-- What a call put in use. -/
inductive Entry where
  | added (name : String)
  | given (name : String)
deriving DecidableEq

def Entry.name : Entry → String
  | added name | given name => name

def Call.run : Call → NameSupply → Except Overflow (Entry × NameSupply)
  | add name, s => .ok (.added name, s.add name)
  | request hint, s => do
    let (name, s) ← s.fresh hint
    return (.given name, s)

/-- What calls put in use one after the other. -/
def history : List Call → NameSupply → Except Overflow (List Entry × NameSupply)
  | [], s => .ok ([], s)
  | c :: calls, s => do
    let (e, s) ← c.run s
    let (es, s) ← history calls s
    return (e :: es, s)

theorem Counted.run {c : Call} {e : Entry} (C : s.Counted) (h : c.run s = .ok (e, s')) :
    s'.Counted := by
  cases c with
  | add name =>
    cases h
    exact (counted_addAll C [name]).1
  | request hint =>
    obtain ⟨⟨name, s₁⟩, hfresh, h⟩ := Checked.bind_eq_ok_iff.mp h
    cases h
    rcases fresh_cases C hint with ⟨_, _, hfresh', C'⟩ | ⟨_, hfresh', -⟩
    · cases hfresh.symm.trans hfresh'
      exact C'
    · cases hfresh.symm.trans hfresh'

/-- After a call the names in use are those before it and the one of its entry, which is new if it
was given. -/
theorem Call.run_used {c : Call} {e : Entry} (h : c.run s = .ok (e, s')) :
    (∀ a, a ∈ s'.used ↔ a ∈ s.used ∨ a = e.name) ∧ ∀ name, e = .given name → name ∉ s.used := by
  cases c with
  | add name =>
    cases h
    exact ⟨fun _ => mem_add, nofun⟩
  | request hint =>
    obtain ⟨⟨name, s₁⟩, hfresh, h⟩ := Checked.bind_eq_ok_iff.mp h
    cases h
    obtain ⟨new, used, -⟩ := fresh_ok hfresh
    refine ⟨fun a => ?_, fun _ same => Entry.given.inj same ▸ new⟩
    rw [used, List.mem_cons, or_comm]
    rfl

theorem Counted.history {calls : List Call} {es : List Entry} (C : s.Counted)
    (h : history calls s = .ok (es, s')) : s'.Counted := by
  induction calls generalizing s es with
  | nil =>
    cases h
    exact C
  | cons c calls ih =>
    obtain ⟨⟨e, s₁⟩, hrun, h⟩ := Checked.bind_eq_ok_iff.mp h
    obtain ⟨⟨es, s₂⟩, hrest, h⟩ := Checked.bind_eq_ok_iff.mp h
    cases h
    exact ih (C.run hrun) hrest

/-- A name that is given was not in use at the start, and stands in no entry before its own. -/
theorem given_new {calls : List Call} {es before after : List Entry} {name : String}
    (h : history calls s = .ok (es, s')) (at_ : es = before ++ .given name :: after) :
    name ∉ s.used ∧ name ∉ before.map Entry.name := by
  induction calls generalizing s es before with
  | nil =>
    cases h
    cases before <;> cases at_
  | cons c calls ih =>
    obtain ⟨⟨e, s₁⟩, hrun, h⟩ := Checked.bind_eq_ok_iff.mp h
    obtain ⟨⟨es', s₂⟩, hrest, h⟩ := Checked.bind_eq_ok_iff.mp h
    cases h
    obtain ⟨used, new⟩ := Call.run_used hrun
    cases before with
    | nil =>
      cases at_
      exact ⟨new name rfl, List.not_mem_nil⟩
    | cons first before =>
      cases at_
      obtain ⟨unused, later⟩ := ih hrest rfl
      rw [used, not_or] at unused
      rw [List.map_cons, List.mem_cons, not_or]
      exact ⟨unused.1, unused.2, later⟩

/-- A request ends in every supply: it overflows exactly if the supply is exhausted for the hint, and
else answers a new name and changes nothing but that and the counter of the hint. In a supply that
calls lead to from the empty one, it answers the hint itself if that is free, else its first free
candidate, and overflows only for want of words to count names with; every name that was given is
different from all names given or added before it. -/
theorem fresh_exact :
    (∀ (s : NameSupply) (hint : String),
      (s.Exhausted hint ∧ s.fresh hint = .error .add) ∨
      (¬ s.Exhausted hint ∧ ∃ name s', s.fresh hint = .ok (name, s') ∧ name ∉ s.used ∧
        (∀ a, a ∈ s'.used ↔ a ∈ s.used ∨ a = name) ∧
        ∀ hint' ≠ hint, s'.nextSuffix.find? hint' = s.nextSuffix.find? hint')) ∧
    ∀ (calls : List Call) (es : List Entry) (s : NameSupply), history calls empty = .ok (es, s) →
      (∀ hint name s', s.fresh hint = .ok (name, s') →
        (hint ∉ s.used → name = hint) ∧
        (hint ∈ s.used → ∃ k, name = candidate hint k ∧ candidate hint k ∉ s.used ∧
          ∀ i < k, candidate hint i ∈ s.used)) ∧
      (∀ hint, s.Exhausted hint → Word.limit ≤ s.used.length) ∧
      ∀ before name after, es = before ++ .given name :: after →
        name ∉ before.map Entry.name := by
  refine ⟨fresh_outcome, fun calls es s h => ?_⟩
  have C : s.Counted := (Counted.mk nofun : empty.Counted).history h
  refine ⟨fun hint name s' hfresh => ⟨fun unused => ?_, fun used => C.fresh_least used hfresh⟩,
    fun hint E => C.limit_le_length E.1 E.2, fun before name after at_ => (given_new h at_).2⟩
  cases hfresh.symm.trans (fresh_of_unused unused)
  rfl

/-- Calls in which a candidate of one hint is a hint itself, and another one was added by hand. -/
def entangled : List Call :=
  [.add "a_1", .request "a", .request "a", .request "a_0", .request "a"]

theorem fresh_exact_entangled : ∃ s,
    history entangled empty =
      .ok ([.added "a_1", .given "a", .given "a_0", .given "a_0_0", .given "a_2"], s) ∧
    "a_2" ∉ ["a_1", "a", "a_0", "a_0_0"] ∧
    ∃ s', "a" ∈ s.used ∧ s.fresh "a" = .ok ("a_3", s') ∧
      ∃ k, "a_3" = candidate "a" k ∧ candidate "a" k ∉ s.used ∧
        ∀ i < k, candidate "a" i ∈ s.used := by
  have run : (history entangled empty).bind (fun r => (r.2.fresh "a").map fun n =>
      (r.1, decide ("a" ∈ r.2.used), n.1)) = .ok
        ([.added "a_1", .given "a", .given "a_0", .given "a_0_0", .given "a_2"], true, "a_3") := by
    decide +kernel
  cases h : history entangled empty with
  | error o =>
    rw [h] at run
    cases run
  | ok r =>
    obtain ⟨es, s⟩ := r
    rw [h] at run
    cases hfresh : s.fresh "a" with
    | error o =>
      rw [Except.bind, hfresh] at run
      cases run
    | ok n =>
      obtain ⟨name, s'⟩ := n
      rw [Except.bind, hfresh] at run
      obtain ⟨rfl, e⟩ := Prod.mk.inj (Except.ok.inj run)
      obtain ⟨used, rfl⟩ := Prod.mk.inj e
      have used : "a" ∈ s.used := of_decide_eq_true used
      obtain ⟨least, -, new⟩ := fresh_exact.2 entangled _ s h
      exact ⟨s, rfl, new [.added "a_1", .given "a", .given "a_0", .given "a_0_0"] "a_2" [] rfl,
        s', used, hfresh, (least "a" "a_3" s' hfresh).2 used⟩

end AnnotatedCircuit.NameSupply
