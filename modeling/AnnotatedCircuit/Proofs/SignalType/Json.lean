import AnnotatedCircuit.Proofs.Json.Decode
import AnnotatedCircuit.SignalType.Json

/-!
# Decoding signal types

A type whose numbers are words is decoded from its written form (`SignalType.ofInput?_of_reading`),
and what is decoded is such a type (`SignalType.writable_of_ofInput?`).
-/

namespace AnnotatedCircuit

open Json

mutual

/-- The numbers in a type are words, as its written form demands. -/
def SignalType.Writable : SignalType → Prop
  | .uint width | .sint width => ∀ n, width = some n → n < Word.limit
  | .clock | .reset | .asyncReset => True
  | .bundle fs => fs.Writable
  | .vector element length => element.Writable ∧ length < Word.limit
  | .ref target => target.Writable

def Fields.Writable : Fields → Prop
  | .nil => True
  | .cons _ _ type rest => type.Writable ∧ rest.Writable

end

theorem SignalType.Writable.toRef {t : SignalType} (h : t.Writable) : t.toRef.Writable := by
  cases t <;> exact h

theorem SignalType.Writable.deref {t : SignalType} (h : t.Writable) : t.deref.Writable := by
  cases t <;> exact h

theorem Json.depth_tagged (tag : String) (v : Json) : (tagged tag v).depth = 1 + v.depth := by
  simp [tagged, depth, depthMembers]

section Reading

variable {S : Json → Input → Prop} {Like : Json → Json → Prop} {i : Input}

theorem width?_of_reading (R : Reading S Like) {width : Option Nat}
    (fits : ∀ n, width = some n → n < Word.limit)
    (h : S (.obj [("width", Json.ofOption Json.nat width)]) i) : width? i = some width := by
  obtain ⟨is, his, _ | ⟨hw, _ | _⟩⟩ := R.contentFields? ["width"] h rfl (by decide)
  rw [width?, his]
  refine R.nullable? hw fun n hn hj => ?_
  exact ⟨by rw [R.int hj]; exact nofun, R.word? hj (fits n hn)⟩

mutual

theorem SignalType.ofInputWithin?_of_reading (R : Reading S Like) : (t : SignalType) →
    {n : Nat} → {i : Input} → t.Writable → S t.toJson i → t.toJson.depth < n →
    SignalType.ofInputWithin? n i = some t
  | _, 0, _, _, _, hd => absurd hd (Nat.not_lt_zero _)
  | .clock, n + 1, i, _, h, _ => by
    simp [SignalType.ofInputWithin?, R.tag?_str h]
  | .reset, n + 1, i, _, h, _ => by
    simp [SignalType.ofInputWithin?, R.tag?_str h]
  | .asyncReset, n + 1, i, _, h, _ => by
    simp [SignalType.ofInputWithin?, R.tag?_str h]
  | .uint width, n + 1, i, fits, h, _ => by
    obtain ⟨j, hj, hw⟩ := R.alternative?_tagged h
    have := width?_of_reading R fits hw
    rcases R.tag?_tagged h with ht | ht <;> rw [SignalType.ofInputWithin?, ht, hj] <;> simp [this]
  | .sint width, n + 1, i, fits, h, _ => by
    obtain ⟨j, hj, hw⟩ := R.alternative?_tagged h
    have := width?_of_reading R fits hw
    rcases R.tag?_tagged h with ht | ht <;> rw [SignalType.ofInputWithin?, ht, hj] <;> simp [this]
  | .bundle fs, n + 1, i, fits, h, hd => by
    obtain ⟨j, hj, hfs⟩ := R.alternative?_tagged h
    obtain ⟨is, his, all⟩ := R.arr hfs
    rw [SignalType.toJson, depth_tagged, Json.depth] at hd
    have := Fields.ofInputs?_of_reading R fs (n := n) fits all (by omega)
    rcases R.tag?_tagged h with ht | ht <;> rw [SignalType.ofInputWithin?, ht, hj] <;> simp [his, this]
  | .vector element length, n + 1, i, fits, h, hd => by
    obtain ⟨j, hj, hv⟩ := R.alternative?_tagged h
    obtain ⟨is, his, _ | ⟨helement, _ | ⟨hlength, _ | _⟩⟩⟩ :=
      R.allContentFields? ["element", "length"] hv rfl (by decide)
    rw [SignalType.toJson, depth_tagged, Json.depth, Json.depthMembers] at hd
    have := SignalType.ofInputWithin?_of_reading R element (n := n) fits.1 helement (by omega)
    rcases R.tag?_tagged h with ht | ht <;> rw [SignalType.ofInputWithin?, ht, hj] <;>
      simp [his, this, R.word? hlength fits.2]
  | .ref target, n + 1, i, fits, h, hd => by
    obtain ⟨j, hj, ht⟩ := R.alternative?_tagged h
    rw [SignalType.toJson, depth_tagged] at hd
    have := SignalType.ofInputWithin?_of_reading R target (n := n) fits ht (by omega)
    rcases R.tag?_tagged h with ht | ht <;> rw [SignalType.ofInputWithin?, ht, hj] <;> simp [this]

theorem Fields.ofInputs?_of_reading (R : Reading S Like) : (fs : Fields) → {n : Nat} →
    {is : List Input} → fs.Writable → List.Forall₂ S fs.toJsonItems is →
    depthItems fs.toJsonItems < n + 1 →
    Fields.ofInputs? (SignalType.ofInputWithin? n) is = some fs
  | .nil, _, _, _, h, _ => by
    cases h
    rfl
  | .cons name flipped type rest, n, is, fits, h, hd => by
    obtain ⟨i, is', hi, hrest, rfl⟩ := List.forall₂_cons_left_iff.mp h
    obtain ⟨js, hjs, _ | ⟨hname, _ | ⟨hflip, _ | ⟨htype, _ | _⟩⟩⟩⟩ :=
      R.allFields? ["name", "flip", "ty"] hi rfl (by decide)
    simp only [Fields.toJsonItems, depthItems, Json.depth, depthMembers] at hd
    have h₁ := SignalType.ofInputWithin?_of_reading R type (n := n) fits.1 htype (by omega)
    have h₂ := Fields.ofInputs?_of_reading R rest (n := n) fits.2 hrest (by omega)
    rw [Fields.ofInputs?, hjs]
    simp [R.str? hname, R.bool? hflip, h₁, h₂]

end

theorem SignalType.ofInput?_of_reading (R : Reading S Like) {t : SignalType} (fits : t.Writable)
    (h : S t.toJson i) : ofInput? i = some t :=
  ofInputWithin?_of_reading R t fits h (by rw [R.depth h]; exact Nat.lt_succ_self _)

theorem Direction.ofInput?_of_reading (R : Reading S Like) {d : Direction} (h : S d.toJson i) :
    ofInput? i = some d := by
  cases d <;> simp [ofInput?, R.tag?_str h]

end Reading

/-! ### What is decoded -/

section

variable {i : Input}

theorem lt_of_width? {width : Option Nat} (h : width? i = some width) {n : Nat}
    (hn : width = some n) : n < Word.limit := by
  subst width
  unfold width? at h
  split at h
  · rename_i j _
    cases j with
    | none => cases h
    | some j =>
      rw [Input.orDefault?, Input.nullable?.eq_def] at h
      split at h
      · cases h
      · obtain ⟨_, h, e⟩ := Option.map_eq_some_iff.mp h
        cases e
        exact Input.natBelow?_lt h
  · cases h

theorem Fields.writable_of_ofInputs? {decode : Input → Option SignalType}
    (hd : ∀ {i t}, decode i = some t → t.Writable) {is : List Input} {fs : Fields}
    (h : ofInputs? decode is = some fs) : fs.Writable := by
  induction is generalizing fs with
  | nil =>
    cases h
    trivial
  | cons i is ih =>
    rw [ofInputs?] at h
    split at h
    · obtain ⟨name, -, h⟩ := Option.bind_eq_some_iff.mp h
      obtain ⟨flipped, -, h⟩ := Option.bind_eq_some_iff.mp h
      obtain ⟨type, htype, h⟩ := Option.bind_eq_some_iff.mp h
      obtain ⟨rest, hrest, h⟩ := Option.bind_eq_some_iff.mp h
      cases h
      exact ⟨hd htype, ih hrest⟩
    · cases h

theorem SignalType.writable_of_ofInputWithin? {level : Nat} {t : SignalType}
    (h : ofInputWithin? level i = some t) : t.Writable := by
  induction level generalizing i t with
  | zero => cases h
  | succ level ih =>
    rw [ofInputWithin?] at h
    split at h <;> try (cases h; trivial)
    split at h
    · obtain ⟨width, hw, rfl⟩ := Option.map_eq_some_iff.mp h
      exact fun _ => lt_of_width? hw
    · obtain ⟨width, hw, rfl⟩ := Option.map_eq_some_iff.mp h
      exact fun _ => lt_of_width? hw
    · obtain ⟨fs, hfs, rfl⟩ := Option.map_eq_some_iff.mp h
      obtain ⟨is, -, hfs⟩ := Option.bind_eq_some_iff.mp hfs
      exact Fields.writable_of_ofInputs? ih hfs
    · split at h
      · obtain ⟨element, helement, h⟩ := Option.bind_eq_some_iff.mp h
        obtain ⟨length, hlength, h⟩ := Option.bind_eq_some_iff.mp h
        cases h
        exact ⟨ih helement, Input.natBelow?_lt hlength⟩
      · cases h
    · obtain ⟨target, ht, rfl⟩ := Option.map_eq_some_iff.mp h
      exact show target.Writable from ih ht
    · cases h

/-- The numbers in a type that is decoded are words. -/
theorem SignalType.writable_of_ofInput? {t : SignalType} (h : ofInput? i = some t) : t.Writable :=
  writable_of_ofInputWithin? h

end


end AnnotatedCircuit
