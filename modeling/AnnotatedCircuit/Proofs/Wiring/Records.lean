import Mathlib.Data.List.Basic
import AnnotatedCircuit.Wiring.Realize

/-!
# The endpoints recorded in a module

The endpoints of a request in a module are the first one and those that close the request there
(`ModuleChanges.ends`). Each step of planning or carrying out adds some of them; their order plays
no role and is kept up to permutation.
-/

namespace AnnotatedCircuit

/-- The value on one side of a request. -/
def WireRequest.side (r : WireRequest) : Wiring.Role → ValueId
  | .source => r.source
  | .sink => r.sink

namespace Wiring

variable {c : ModuleChanges} {n k : Nat} {e : Endpoint} {m : ModuleId}

namespace ModuleChanges

/-- The endpoints recorded for a request, the first one first. -/
def ends (c : ModuleChanges) (n : Nat) : List Endpoint :=
  (c.endpoints.find? n).toList ++ (c.closings.filter (·.2 = n)).map Prod.fst

/-- Only requests that have an endpoint are closed. -/
def Opened (c : ModuleChanges) : Prop :=
  ∀ r ∈ c.closings, ∃ e, c.endpoints.find? r.2 = some e

@[simp] theorem ports_record (c : ModuleChanges) (n : Nat) (e : Endpoint) :
    (c.record n e).ports = c.ports := by
  unfold record
  split <;> rfl

theorem ends_record (c : ModuleChanges) (n : Nat) (e : Endpoint) (k : Nat) :
    ((c.record n e).ends k).Perm ((if n = k then [e] else []) ++ c.ends k) := by
  unfold record
  split
  · by_cases h : n = k
    · subst h
      have : (c.closings ++ [(e, n)]).filter (·.2 = n) =
          c.closings.filter (·.2 = n) ++ [(e, n)] := by
        simp
      rw [if_pos rfl, ends, this, List.map_append, ← List.append_assoc]
      exact List.perm_append_singleton e _
    · simp [ends, h]
  · rename_i hc
    have hnone : c.endpoints.find? n = none := by simpa [OrderedMap.contains] using hc
    by_cases h : n = k
    · subst h
      simp [ends, OrderedMap.find?_insert, hnone]
    · simp [ends, OrderedMap.find?_insert, h]

theorem Opened.record (H : c.Opened) (n : Nat) (e : Endpoint) : (c.record n e).Opened := by
  unfold ModuleChanges.record
  split
  · rename_i hc
    intro r hr
    rcases List.mem_append.mp hr with hr | hr
    · exact H r hr
    · obtain rfl := List.mem_singleton.mp hr
      exact Option.isSome_iff_exists.mp hc
  · intro r hr
    obtain ⟨f, hf⟩ := H r hr
    simp only [OrderedMap.find?_insert]
    split
    · exact ⟨e, rfl⟩
    · exact ⟨f, hf⟩

/-- A request with endpoints has a first one. -/
theorem Opened.first (H : c.Opened) (h : e ∈ c.ends n) :
    ∃ f, c.endpoints.find? n = some f ∧ f ∈ c.ends n := by
  have some_first : ∀ f, c.endpoints.find? n = some f → f ∈ c.ends n := by
    intro f hf
    simp [ends, hf]
  rcases List.mem_append.mp h with he | he
  · cases hf : c.endpoints.find? n with
    | none => simp [hf] at he
    | some f => exact ⟨f, rfl, some_first f hf⟩
  · obtain ⟨r, hr, rfl⟩ := List.mem_map.mp he
    obtain ⟨hr, hn⟩ := List.mem_filter.mp hr
    obtain ⟨f, hf⟩ := H r hr
    obtain rfl : r.2 = n := by simpa using hn
    exact ⟨f, hf, some_first f hf⟩

/-- All endpoints of a request but the first one close it. -/
theorem Opened.length_ends (H : c.Opened) (n : Nat) :
    (c.ends n).length - 1 = (c.closings.filter (·.2 = n)).length := by
  rw [ends, List.length_append, List.length_map]
  cases hf : c.endpoints.find? n with
  | some f => simp
  | none =>
    have : c.closings.filter (·.2 = n) = [] := by
      apply List.filter_eq_nil_iff.mpr
      intro r hr hn
      obtain ⟨f, hf'⟩ := H r hr
      obtain rfl : r.2 = n := by simpa using hn
      rw [hf] at hf'
      contradiction
    simp [this]

end ModuleChanges

/-- The roles of the ports planned for a request, seen from the module around. -/
def portRoles (ports : List PlannedPort) (n : Nat) : List Role :=
  (ports.filter (·.request = n)).map fun p => Realize.roleOfResult p.port.direction

namespace Realize

variable {ports : List PlannedPort} {results : List ValueId}

/-- The endpoint that a result is for a new port. -/
def resultEnd (r : PlannedPort × ValueId) : Endpoint := ⟨r.2, roleOfResult r.1.port.direction⟩

@[simp] theorem ports_recordResults (c : ModuleChanges) (ports : List PlannedPort)
    (results : List ValueId) : (recordResults c ports results).ports = c.ports := by
  unfold recordResults
  induction ports.zip results generalizing c with
  | nil => rfl
  | cons r rs ih => exact (ih _).trans (ModuleChanges.ports_record ..)

theorem ends_recordResults (c : ModuleChanges) (ports : List PlannedPort) (results : List ValueId)
    (n : Nat) : ((recordResults c ports results).ends n).Perm
      (((ports.zip results).filter (·.1.request = n)).map resultEnd ++ c.ends n) := by
  unfold recordResults
  induction ports.zip results generalizing c with
  | nil => exact .refl _
  | cons r rs ih =>
    refine (ih _).trans ((ModuleChanges.ends_record ..).append_left _ |>.trans ?_)
    by_cases h : r.1.request = n
    · rw [if_pos h, List.filter_cons_of_pos (by simpa using h)]
      exact List.perm_middle
    · rw [if_neg h, List.filter_cons_of_neg (by simpa using h)]
      exact .refl _

theorem opened_recordResults (H : c.Opened) (ports : List PlannedPort) (results : List ValueId) :
    (recordResults c ports results).Opened := by
  unfold recordResults
  induction ports.zip results generalizing c with
  | nil => exact H
  | cons r rs ih => exact ih (ModuleChanges.Opened.record H r.1.request (resultEnd r))

/-- Every port adds its role. -/
theorem roles_recordResults (hlen : ports.length = results.length) (c : ModuleChanges) (n : Nat) :
    (((recordResults c ports results).ends n).map Endpoint.role).Perm
      (portRoles ports n ++ (c.ends n).map Endpoint.role) := by
  refine ((ends_recordResults c ports results n).map _).trans (.of_eq ?_)
  rw [List.map_append, List.map_map]
  refine congrArg (· ++ _) ?_
  have : ports = (ports.zip results).map Prod.fst := (List.map_fst_zip (Nat.le_of_eq hlen)).symm
  conv_rhs => rw [portRoles, this, List.filter_map, List.map_map]
  rfl

end Realize

namespace Plan

/-- What is planned for a module. -/
def changesOf (p : Plan) (m : ModuleId) : ModuleChanges := (p.changes.find? m).getD .empty

theorem changesOf_modify (p : Plan) (m : ModuleId) (f : ModuleChanges → ModuleChanges)
    (m' : ModuleId) :
    (p.modify m f).changesOf m' = if m = m' then f (p.changesOf m) else p.changesOf m' := by
  unfold changesOf modify
  rw [OrderedMap.find?_update]
  split <;> rfl

theorem changesOf_erase (p : Plan) (m m' : ModuleId) :
    changesOf { p with changes := p.changes.erase m } m' =
      if m = m' then .empty else p.changesOf m' := by
  unfold changesOf
  rw [OrderedMap.find?_erase]
  split <;> rfl

end Plan

end Wiring

end AnnotatedCircuit
