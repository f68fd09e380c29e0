import Mathlib.Data.List.Forall2
import Mathlib.Data.List.TakeWhile
import Mathlib.Tactic.MkIffOfInductiveProp
import AnnotatedCircuit.Proofs.Outcome
import AnnotatedCircuit.Target.Path

/-!
# Target paths as texts

`TargetPath.WellFormed` says which paths have a written form: no part contains a mark that would end
it there. Reading answers well-formed paths only, and a well-formed path is read back from what is
written for it; so is one without hops from its dotted spelling, if no name in it contains any mark
(`TargetPath.reading_exact`).
-/

namespace AnnotatedCircuit

/-- None of the marks stands in the text. -/
def Avoids (s : String) (marks : List Char) : Prop := ∀ c ∈ s.toList, c ∉ marks

instance (s : String) (marks : List Char) : Decidable (Avoids s marks) :=
  List.decidableBAll (· ∉ marks) s.toList

theorem Avoids.not_mem {s : String} {marks : List Char} {c : Char} (h : Avoids s marks)
    (hc : c ∈ marks) : c ∉ s.toList := fun hs => h c hs hc

theorem Avoids.mono {s : String} {marks marks' : List Char} (h : Avoids s marks)
    (hm : marks' ⊆ marks) : Avoids s marks' := fun c hs hc => h c hs (hm hc)

/-- An access with a written form: a field has a name without marks, an index is a word. -/
def Access.WellFormed : Access → Prop
  | .field name => name ≠ "" ∧ Avoids name [':', '.', '[']
  | .index n => n < Word.limit

instance : (a : Access) → Decidable a.WellFormed
  | .field name => inferInstanceAs (Decidable (name ≠ "" ∧ Avoids name [':', '.', '[']))
  | .index n => inferInstanceAs (Decidable (n < Word.limit))

/-- A hop with a written form. The name of the instance may contain a slash. -/
@[mk_iff]
structure Hop.WellFormed (h : Hop) : Prop where
  module : h.module ≠ "" ∧ Avoids h.module ['/', ':']
  inst : h.inst ≠ "" ∧ Avoids h.inst [':']

instance (h : Hop) : Decidable h.WellFormed := decidable_of_iff _ (Hop.wellFormed_iff h).symm

namespace TargetPath

/-- A path with a written form. -/
@[mk_iff]
structure WellFormed (p : TargetPath) : Prop where
  circuit : Avoids p.circuit ['|']
  hops : ∀ h ∈ p.hops, h.WellFormed
  module : ∀ m ∈ p.module, m ≠ "" ∧ Avoids m [':', '.', '[', '>']
  name : ∀ n ∈ p.name, n ≠ "" ∧ Avoids n [':', '.', '[']
  accesses : ∀ a ∈ p.accesses, a.WellFormed
  /-- Without a module there is nothing to name. -/
  bare : p.module = none → p.hops = [] ∧ p.name = none
  /-- Without a name there is nothing to access. -/
  nameless : p.name = none → p.accesses = []

instance (p : TargetPath) : Decidable p.WellFormed := decidable_of_iff _ (wellFormed_iff p).symm

variable {c : Char} {a b cs ds rest acc : List Char} {as done : List Access} {p : Pending}

/-! ### Cutting texts -/

theorem cut?_eq_some_iff : cut? c cs = some (a, b) ↔ c ∉ a ∧ cs = a ++ c :: b := by
  induction cs generalizing a b with
  | nil => simp [cut?]
  | cons d ds ih =>
    rw [cut?]
    by_cases hd : d = c
    · subst d
      rw [if_pos rfl, Option.some.injEq, Prod.mk.injEq]
      cases a with
      | nil => simp
      | cons e a =>
        refine iff_of_false nofun fun ⟨hc, e⟩ => hc ?_
        rw [List.cons_append] at e
        exact (List.cons.inj e).1 ▸ List.mem_cons_self
    · rw [if_neg hd]
      cases a with
      | nil => simp [hd]
      | cons e a =>
        simp only [Option.map_eq_some_iff, Prod.exists, ih, Prod.mk.injEq, List.cons.injEq,
          List.mem_cons, not_or, List.cons_append]
        constructor
        · rintro ⟨_, _, ⟨hc, rfl⟩, ⟨rfl, rfl⟩, rfl⟩
          exact ⟨⟨Ne.symm hd, hc⟩, rfl, rfl⟩
        · rintro ⟨⟨-, hc⟩, rfl, rfl⟩
          exact ⟨_, _, ⟨hc, rfl⟩, ⟨rfl, rfl⟩, rfl⟩

theorem cut?_eq_none_iff : cut? c cs = none ↔ c ∉ cs := by
  induction cs with
  | nil => simp [cut?]
  | cons d ds ih =>
    rw [cut?]
    by_cases hd : d = c
    · simp [hd]
    · simp [hd, ih, Ne.symm hd]

theorem pieces_of_not_mem (h : c ∉ cs) : pieces c cs = [cs] := by
  induction cs with
  | nil => rfl
  | cons d ds ih =>
    obtain ⟨hne, h⟩ := not_or.mp (mt List.mem_cons.mpr h)
    rw [pieces, if_neg (Ne.symm hne), ih h]

theorem pieces_append (h : c ∉ a) : pieces c (a ++ c :: b) = a :: pieces c b := by
  induction a with
  | nil => simp [pieces]
  | cons d ds ih =>
    obtain ⟨hne, h⟩ := not_or.mp (mt List.mem_cons.mpr h)
    rw [List.cons_append, pieces, if_neg (Ne.symm hne), ih h]

theorem not_mem_of_mem_pieces (h : a ∈ pieces c cs) : c ∉ a := by
  induction cs generalizing a with
  | nil =>
    cases List.mem_singleton.mp h
    exact List.not_mem_nil
  | cons d ds ih =>
    rw [pieces] at h
    split at h
    · rcases List.mem_cons.mp h with rfl | h
      · exact List.not_mem_nil
      · exact ih h
    · rename_i hd
      split at h
      · cases List.mem_singleton.mp h
        simpa using Ne.symm hd
      · rename_i p ps hps
        rw [hps] at ih
        rcases List.mem_cons.mp h with rfl | h
        · simpa [Ne.symm hd] using ih List.mem_cons_self
        · exact ih (List.mem_cons_of_mem _ h)

theorem replaceDot_of_not_mem {mark : Char} (h : '.' ∉ cs) : replaceDot mark cs = cs := by
  induction cs with
  | nil => rfl
  | cons d ds ih =>
    obtain ⟨hne, h⟩ := not_or.mp (mt List.mem_cons.mpr h)
    rw [replaceDot, if_neg (Ne.symm hne), ih h]

theorem replaceDot_append {mark : Char} (h : '.' ∉ a) :
    replaceDot mark (a ++ '.' :: b) = a ++ mark :: b := by
  induction a with
  | nil => simp [replaceDot]
  | cons d ds ih =>
    obtain ⟨hne, h⟩ := not_or.mp (mt List.mem_cons.mpr h)
    rw [List.cons_append, replaceDot, if_neg (Ne.symm hne), ih h, List.cons_append]

/-! ### Accesses -/

theorem not_mem_toDigits {n : Nat} (hc : c.isDigit = false) : c ∉ Nat.toDigits 10 n := fun h => by
  rw [Nat.isDigit_of_mem_toDigits (by decide) (by decide) h] at hc
  cases hc

theorem index?_toDigits {n : Nat} (h : n < Word.limit) : index? (Nat.toDigits 10 n) = some n := by
  have value : (Nat.toDigits 10 n).foldl (fun n c => n * 10 + (c.toNat - '0'.toNat)) 0 = n := by
    have := Nat.ofDigitChars_toDigits (b := 10) (n := n) (by decide) (by decide)
    rw [Nat.ofDigitChars_eq_foldl] at this
    simpa only [Nat.mul_comm 10] using this
  have digit : ∀ c ∈ Nat.toDigits 10 n, c.isDigit = true := fun _ =>
    Nat.isDigit_of_mem_toDigits (by decide) (by decide)
  unfold index?
  split
  · rename_i ds e
    exact absurd (e ▸ List.mem_cons_self) (not_mem_toDigits (c := '+') (n := n) rfl)
  · dsimp only
    rw [value, if_pos ⟨Nat.toDigits_ne_nil, List.all_eq_true.mpr digit, h⟩]

theorem lt_of_index? {n : Nat} (h : index? cs = some n) : n < Word.limit := by
  have word : ∀ ds : List Char,
      (let n := ds.foldl (fun n c => n * 10 + (c.toNat - '0'.toNat)) 0
        if ds ≠ [] ∧ ds.all Char.isDigit ∧ n < Word.limit then some n else none) = some n →
      n < Word.limit := by
    intro ds h
    dsimp only at h
    split at h
    · rename_i hn
      cases h
      exact hn.2.2
    · cases h
  unfold index? at h
  split at h <;> exact word _ h

theorem toList_renderAccess (a : Access) : (renderAccess a).toList = match a with
    | .field name => '.' :: name.toList
    | .index n => '[' :: (Nat.toDigits 10 n ++ [']']) := by
  cases a <;> simp [renderAccess, toString, Nat.repr]

/-- Accesses as they are written, one behind the other. -/
def accessesChars (as : List Access) : List Char := as.flatMap fun a => (renderAccess a).toList

theorem accesses?_field (h : ∀ c ∈ cs, c ≠ '.' ∧ c ≠ '[') :
    accesses? (.field acc) (cs ++ rest) = accesses? (.field (cs.reverse ++ acc)) rest := by
  induction cs generalizing acc with
  | nil => rfl
  | cons c cs ih =>
    obtain ⟨⟨hdot, hopen⟩, h⟩ := List.forall_mem_cons.mp h
    rw [List.cons_append, accesses?, if_neg hdot, if_neg hopen]
    simp [ih h]

theorem accesses?_index (h : ']' ∉ ds) : accesses? (.index acc) (ds ++ ']' :: rest) = (do
    let n ← index? (acc.reverse ++ ds)
    return .index n :: (← accesses? .nothing rest)) := by
  induction ds generalizing acc with
  | nil => rw [List.nil_append, accesses?, if_pos rfl, List.append_nil]
  | cons c ds ih =>
    obtain ⟨hne, h⟩ := not_or.mp (mt List.mem_cons.mpr h)
    rw [List.cons_append, accesses?, if_neg (Ne.symm hne), ih h]
    simp

/-- Outside brackets a dot or a bracket completes what is under way and starts an access. -/
theorem accesses?_start (outside : ∀ cs, p ≠ .index cs) :
    accesses? p ('.' :: rest) = (do return (← p.finish?) ++ (← accesses? (.field []) rest)) ∧
      accesses? p ('[' :: rest) = (do return (← p.finish?) ++ (← accesses? (.index []) rest)) := by
  cases p with
  | nothing =>
    constructor
    · rw [accesses?, if_pos rfl] <;> nofun
    · rw [accesses?, if_neg (by decide), if_pos rfl] <;> nofun
  | field cs =>
    constructor
    · rw [accesses?, if_pos rfl]
    · rw [accesses?, if_neg (by decide), if_pos rfl]
  | index cs => exact absurd rfl (outside cs)

theorem finish?_field {name : String} (h : name ≠ "") :
    (Pending.field name.toList.reverse).finish? = some [.field name] := by
  have written : String.ofList name.toList.reverse.reverse = name := by simp
  cases hcs : name.toList.reverse with
  | nil => simp [h] at hcs
  | cons c cs => rw [Pending.finish?, ← hcs, written]; nofun

/-- Written accesses are read behind any access that is complete. -/
theorem accesses?_written (hp : p.finish? = some done) (h : ∀ a ∈ as, a.WellFormed) :
    accesses? p (accessesChars as) = some (done ++ as) := by
  induction as generalizing p done with
  | nil => simpa [accessesChars, accesses?] using hp
  | cons a as ih =>
    obtain ⟨ha, others⟩ := List.forall_mem_cons.mp h
    have outside : ∀ cs, p ≠ .index cs := by
      rintro cs rfl
      cases hp
    have split : accessesChars (a :: as) = (renderAccess a).toList ++ accessesChars as := rfl
    rw [split, toList_renderAccess]
    cases a with
    | field name =>
      obtain ⟨hne, avoids⟩ := ha
      have plain : ∀ c ∈ name.toList, c ≠ '.' ∧ c ≠ '[' := fun c hc => by
        have := avoids c hc
        simp only [List.mem_cons, List.not_mem_nil, or_false, not_or] at this
        exact this.2
      rw [List.cons_append, (accesses?_start outside).1, hp, accesses?_field plain,
        List.append_nil, ih (finish?_field hne) others]
      simp
    | index n =>
      have complete : Pending.nothing.finish? = some [] := rfl
      rw [List.cons_append, (accesses?_start outside).2, hp, List.append_assoc,
        List.singleton_append, accesses?_index (not_mem_toDigits rfl), List.reverse_nil,
        List.nil_append, index?_toDigits ha, ih complete others]
      rfl

/-- Nothing that an access under way has collected ends it. -/
def Pending.Open : Pending → Prop
  | .field cs => ∀ c ∈ cs, c ∉ [':', '.', '[']
  | _ => True

theorem wellFormed_of_finish? (hp : p.Open) (h : p.finish? = some as) : ∀ a ∈ as, a.WellFormed := by
  cases p with
  | nothing =>
    cases h
    exact nofun
  | field cs =>
    cases cs with
    | nil => cases h
    | cons c cs =>
      cases h
      intro a ha
      obtain rfl := List.mem_singleton.mp ha
      refine ⟨by simp, fun c hc => hp c ?_⟩
      rwa [String.toList_ofList, List.mem_reverse] at hc
  | index cs => cases h

theorem wellFormed_of_accesses? (hcs : ':' ∉ cs) (hp : p.Open) (h : accesses? p cs = some as) :
    ∀ a ∈ as, a.WellFormed := by
  have tail : ∀ {c cs}, ':' ∉ c :: cs → ':' ∉ cs := fun h hc => h (List.mem_cons_of_mem _ hc)
  fun_induction accesses? p cs generalizing as with
  | case1 p => exact wellFormed_of_finish? hp h
  | case2 cs rest ih =>
    obtain ⟨n, hn, h⟩ := Option.bind_eq_some_iff.mp h
    obtain ⟨as', has', h⟩ := Option.bind_eq_some_iff.mp h
    cases h
    exact List.forall_mem_cons.mpr ⟨lt_of_index? hn, ih (tail hcs) trivial has'⟩
  | case3 cs c rest hne ih => exact ih (tail hcs) trivial h
  | case4 p rest other ih | case5 p rest other _ ih =>
    obtain ⟨done, hdone, h⟩ := Option.bind_eq_some_iff.mp h
    obtain ⟨as', has', h⟩ := Option.bind_eq_some_iff.mp h
    cases h
    exact List.forall_mem_append.mpr
      ⟨wellFormed_of_finish? hp hdone, ih (tail hcs) (by simp [Pending.Open]) has'⟩
  | case6 c rest hdot hopen cs _ ih =>
    have hc : c ≠ ':' := fun e => hcs (e ▸ List.mem_cons_self)
    refine ih (tail hcs) (List.forall_mem_cons.mpr ⟨?_, hp⟩) h
    simp [hc, hdot, hopen]
  | case7 => cases h

/-! ### What stands behind the bar -/

/-- A hop as it stands in front of its colon. -/
def hopChars (h : Hop) : List Char := h.module.toList ++ '/' :: h.inst.toList

theorem hop?_eq_some_iff {h : Hop} : hop? cs = some h ↔
    h.module ≠ "" ∧ '/' ∉ h.module.toList ∧ h.inst ≠ "" ∧ hopChars h = cs := by
  rw [hop?]
  cases hcut : cut? '/' cs with
  | none =>
    have plain := cut?_eq_none_iff.mp hcut
    refine iff_of_false nofun ?_
    rintro ⟨-, -, -, rfl⟩
    simp [hopChars] at plain
  | some parts =>
    obtain ⟨m, i⟩ := parts
    obtain ⟨hm, rfl⟩ := cut?_eq_some_iff.mp hcut
    dsimp only
    constructor
    · intro h
      split at h
      · cases h
      · rename_i parts
        rw [not_or] at parts
        cases h
        simpa [hopChars] using ⟨parts.1, hm, parts.2⟩
    · rintro ⟨hne, plain, hi, e⟩
      have hcut' := cut?_eq_some_iff.mpr ⟨plain, e.symm⟩
      obtain ⟨rfl, rfl⟩ := Prod.mk.inj (Option.some.inj (hcut.symm.trans hcut'))
      rw [if_neg (by simp [hne, hi])]
      simp

/-- A module and perhaps a name in it. -/
def baseChars (m : List Char) (name : Option (List Char)) : List Char := m ++ name.elim [] ('>' :: ·)

/-- The first angle parts a name from its module. -/
def splitName (base : List Char) : List Char × Option (List Char) :=
  match cut? '>' base with
  | some (m, n) => (m, some n)
  | none => (base, none)

theorem splitName_eq_iff {base m : List Char} {name : Option (List Char)} :
    splitName base = (m, name) ↔ '>' ∉ m ∧ base = baseChars m name := by
  have cut : splitName base = (m, name) ↔ (name = none ∧ cut? '>' base = none ∧ base = m) ∨
      ∃ n, name = some n ∧ cut? '>' base = some (m, n) := by
    rw [splitName]
    cases cut? '>' base <;> cases name <;> simp [Prod.ext_iff]
  rw [cut]
  simp only [cut?_eq_none_iff, cut?_eq_some_iff, baseChars]
  cases name with
  | none =>
    have same : '>' ∉ base ∧ base = m ↔ '>' ∉ m ∧ base = m :=
      and_congr_left fun e => by rw [e]
    simpa using same
  | some n => simp

/-- Nothing that is needed is missing behind the bar. -/
def Complete (m : List Char) (name : Option (List Char)) (hops : List Hop) (as : List Access) :
    Prop :=
  name ≠ some [] ∧ (m = [] → name = none ∧ hops = []) ∧ (name = none → as = [])

/-- The pieces in front of the last one are hops; the last one is a module, perhaps with a name in
it, and accesses. -/
theorem tail?_eq_some_iff {circuit : String} {p : TargetPath} : tail? circuit cs = some p ↔
    ∃ hops m name as, (pieces ':' cs).dropLast.mapM hop? = some hops ∧
      splitName (((pieces ':' cs).getLastD []).takeWhile (!startsAccess ·)) = (m, name) ∧
      accesses? .nothing (((pieces ':' cs).getLastD []).dropWhile (!startsAccess ·)) = some as ∧
      Complete m name hops as ∧
      ⟨circuit, hops, if m = [] then none else some (String.ofList m), name.map String.ofList,
        as⟩ = p := by
  unfold tail?
  extract_lets ps last base
  change (ps.dropLast.mapM hop? >>= fun hops =>
    accesses? .nothing (last.dropWhile (!startsAccess ·)) >>= fun as =>
      if (splitName base).2 = some [] ∨
          ((splitName base).1 = [] ∧ ((splitName base).2 ≠ none ∨ hops ≠ [])) ∨
          ((splitName base).2 = none ∧ as ≠ []) then none
      else some (⟨circuit, hops, if (splitName base).1 = [] then none
        else some (String.ofList (splitName base).1), (splitName base).2.map String.ofList, as⟩ :
          TargetPath)) = some p ↔ _
  generalize splitName base = parts
  obtain ⟨m, name⟩ := parts
  have faults : ∀ (hops : List Hop) (as : List Access), (name = some [] ∨
      (m = [] ∧ (name ≠ none ∨ hops ≠ [])) ∨ (name = none ∧ as ≠ [])) ↔
        ¬Complete m name hops as := by
    intro hops as
    rw [Complete]
    tauto
  simp only [Option.bind_eq_bind, Option.bind_eq_some_iff]
  constructor
  · rintro ⟨hops, hhops, as, has, h⟩
    split at h
    · cases h
    · rename_i sound
      rw [faults, not_not] at sound
      exact ⟨hops, m, name, as, hhops, rfl, has, sound, Option.some.inj h⟩
  · rintro ⟨hops, m', name', as, hhops, e, has, complete, rfl⟩
    cases e
    exact ⟨hops, hhops, as, has, if_neg fun fault => (faults hops as).mp fault complete⟩

/-! ### Writing -/

/-- What is written behind the bar. -/
def tailChars (hops : List Hop) (m : List Char) (name : Option (List Char)) (as : List Access) :
    List Char :=
  hops.flatMap (fun h => hopChars h ++ [':']) ++ (baseChars m name ++ accessesChars as)

theorem toList_render (p : TargetPath) : p.render.toList = '~' :: (p.circuit.toList ++
    match p.module with
    | none => []
    | some m => '|' :: tailChars p.hops m.toList (p.name.map String.toList) p.accesses) := by
  rw [render]
  cases p.module with
  | none => simp
  | some m =>
    cases p.name <;>
    simp [tailChars, hopChars, baseChars, accessesChars, List.flatMap_map]

theorem pieces_hops {hops : List Hop} {last : List Char} (h : ∀ h ∈ hops, ':' ∉ hopChars h)
    (hlast : ':' ∉ last) : pieces ':' (hops.flatMap (fun h => hopChars h ++ [':']) ++ last) =
      hops.map hopChars ++ [last] := by
  induction hops with
  | nil => exact pieces_of_not_mem hlast
  | cons hop hops ih =>
    obtain ⟨hhop, h⟩ := List.forall_mem_cons.mp h
    rw [List.flatMap_cons, List.append_assoc, List.append_assoc, List.singleton_append,
      pieces_append hhop, ih h]
    rfl

theorem not_mem_hopChars {h : Hop} (W : h.WellFormed) : ':' ∉ hopChars h := by
  simp [hopChars, W.module.2.not_mem, W.inst.2.not_mem]

theorem not_mem_accessesChars (h : ∀ a ∈ as, a.WellFormed) : ':' ∉ accessesChars as := by
  intro hc
  obtain ⟨a, ha, hc⟩ := List.mem_flatMap.mp hc
  rw [toList_renderAccess] at hc
  cases a with
  | field name =>
    rcases List.mem_cons.mp hc with hc | hc
    · cases hc
    · exact (h _ ha).2.not_mem List.mem_cons_self hc
  | index n =>
    have digits : ':' ∉ Nat.toDigits 10 n := not_mem_toDigits rfl
    simp [digits] at hc

theorem baseChars_avoids {m : String} {name : Option String} {marks : List Char}
    (hm : Avoids m marks) (hn : ∀ n ∈ name, Avoids n marks) (angle : '>' ∉ marks) :
    ∀ c ∈ baseChars m.toList (name.map String.toList), c ∉ marks := by
  intro c hc
  rcases List.mem_append.mp hc with hc | hc
  · exact hm c hc
  · cases name with
    | none => cases hc
    | some n =>
      rcases List.mem_cons.mp hc with rfl | hc
      · exact angle
      · exact hn n rfl c hc

/-- The accesses begin where the first one starts. -/
theorem span_base {base : List Char} (h : ∀ c ∈ base, c ∉ [':', '.', '[']) (as : List Access) :
    (base ++ accessesChars as).takeWhile (!startsAccess ·) = base ∧
      (base ++ accessesChars as).dropWhile (!startsAccess ·) = accessesChars as := by
  have plain : ∀ c ∈ base, (!startsAccess c) = true := fun c hc => by
    have := h c hc
    simp only [List.mem_cons, List.not_mem_nil, or_false, not_or] at this
    simp [startsAccess, this]
  rw [List.takeWhile_append_of_pos plain, List.dropWhile_append_of_pos plain]
  cases as with
  | nil => simp [accessesChars]
  | cons a as =>
    rw [accessesChars, List.flatMap_cons, toList_renderAccess]
    cases a <;> simp [startsAccess]

/-- What is written behind the bar is read back. -/
theorem tail?_tailChars {p : TargetPath} {m : String} (W : p.WellFormed) (hm : p.module = some m) :
    tail? p.circuit (tailChars p.hops m.toList (p.name.map String.toList) p.accesses) = some p := by
  obtain ⟨named, avoids⟩ := W.module m hm
  have named : m.toList ≠ [] := by simpa using named
  have hops : (p.hops.map hopChars).mapM hop? = some p.hops := by
    rw [Option.mapM_eq_some_iff, List.forall₂_map_left_iff, List.forall₂_same]
    intro h hh
    obtain ⟨⟨hm, avoids⟩, hi, -⟩ := W.hops h hh
    exact hop?_eq_some_iff.mpr ⟨hm, avoids.not_mem (by simp), hi, rfl⟩
  have base : ∀ c ∈ baseChars m.toList (p.name.map String.toList), c ∉ [':', '.', '['] :=
    baseChars_avoids (avoids.mono (by simp)) (fun n hn => (W.name n hn).2) (by simp)
  have hps : pieces ':' (tailChars p.hops m.toList (p.name.map String.toList) p.accesses) =
      p.hops.map hopChars ++
        [baseChars m.toList (p.name.map String.toList) ++ accessesChars p.accesses] := by
    refine pieces_hops (fun h hh => not_mem_hopChars (W.hops h hh)) fun hc => ?_
    rcases List.mem_append.mp hc with hc | hc
    · exact base _ hc List.mem_cons_self
    · exact not_mem_accessesChars W.accesses hc
  obtain ⟨take, drop⟩ := span_base base p.accesses
  refine tail?_eq_some_iff.mpr ⟨p.hops, m.toList, p.name.map String.toList, p.accesses, ?_⟩
  rw [hps, List.dropLast_concat, List.getLastD_concat, take, drop]
  refine ⟨hops, splitName_eq_iff.mpr ⟨avoids.not_mem (by simp), rfl⟩,
    accesses?_written (p := .nothing) rfl W.accesses, ⟨?_, fun h => absurd h named, ?_⟩, ?_⟩
  · intro e
    obtain ⟨n, hn, e⟩ := Option.map_eq_some_iff.mp e
    exact (W.name n hn).1 (by simpa using e)
  · exact fun h => W.nameless (by simpa using h)
  · rw [if_neg named, String.ofList_toList, ← hm, Option.map_map]
    simp [Function.comp_def]

/-- A well-formed path is read back from what is written for it. -/
theorem parse?_render {p : TargetPath} (W : p.WellFormed) : parse? p.render = some p := by
  have bar : '|' ∉ '~' :: p.circuit.toList := by simp [W.circuit.not_mem]
  rw [parse?, toList_render]
  cases hm : p.module with
  | none =>
    obtain ⟨hops, name⟩ := W.bare hm
    have accesses := W.nameless name
    have cut : cut? '|' ('~' :: (p.circuit.toList ++ [])) = none :=
      cut?_eq_none_iff.mpr (by rwa [List.append_nil])
    dsimp only
    rw [cut]
    obtain ⟨circuit, _, _, _, _⟩ := p
    cases hm
    cases hops
    cases name
    cases accesses
    simp [tail?, pieces, accesses?, Pending.finish?, cut?]
  | some m =>
    have cut : cut? '|' ('~' :: (p.circuit.toList ++
        '|' :: tailChars p.hops m.toList (p.name.map String.toList) p.accesses)) =
          some ('~' :: p.circuit.toList,
            tailChars p.hops m.toList (p.name.map String.toList) p.accesses) :=
      cut?_eq_some_iff.mpr ⟨bar, rfl⟩
    dsimp only
    rw [cut]
    simpa using tail?_tailChars W hm

/-! ### Reading -/

theorem pieces_ne_nil : pieces c cs ≠ [] := by
  cases cs with
  | nil => exact nofun
  | cons d ds =>
    rw [pieces]
    split
    · exact nofun
    · split <;> exact nofun

theorem avoids_iff {s : String} {marks : List Char} :
    Avoids s marks ↔ ∀ mark ∈ marks, mark ∉ s.toList :=
  ⟨fun h _ hm hs => h _ hs hm, fun h _ hs hm => h _ hm hs⟩

theorem wellFormed_of_hop? {h : Hop} (hcs : ':' ∉ cs) (read : hop? cs = some h) : h.WellFormed := by
  obtain ⟨hm, slash, hi, rfl⟩ := hop?_eq_some_iff.mp read
  simp only [hopChars, List.mem_append, List.mem_cons, not_or] at hcs
  constructor
  · simpa [avoids_iff] using ⟨hm, slash, hcs.1⟩
  · simpa [avoids_iff] using ⟨hi, hcs.2.2⟩

theorem wellFormed_of_tail? {circuit : String} {p : TargetPath} (hc : Avoids circuit ['|'])
    (h : tail? circuit cs = some p) : p.WellFormed := by
  obtain ⟨hops, m, name, as, hhops, hname, has, ⟨named, bare, nameless⟩, rfl⟩ :=
    tail?_eq_some_iff.mp h
  obtain ⟨angle, hbase⟩ := splitName_eq_iff.mp hname
  have last : ':' ∉ (pieces ':' cs).getLastD [] := by
    rw [List.getLastD_eq_getLast?, List.getLast?_eq_some_getLast pieces_ne_nil]
    exact not_mem_of_mem_pieces (List.getLast_mem _)
  -- The module and the name stand in front of the first access.
  have base : ':' ∉ baseChars m name ∧ '.' ∉ baseChars m name ∧ '[' ∉ baseChars m name := by
    rw [← hbase]
    refine ⟨fun hc => last ((List.takeWhile_sublist _).subset hc), fun hc => ?_, fun hc => ?_⟩ <;>
    exact absurd (List.mem_takeWhile_imp hc) (by decide)
  simp only [baseChars, List.mem_append, not_or] at base
  refine ⟨hc, fun h hh => ?_, fun m' hm' => ?_, fun n hn => ?_, ?_, fun h => ?_, fun h => ?_⟩
  · obtain ⟨piece, hpiece, read⟩ := Option.exists_of_mem_mapM hhops hh
    exact wellFormed_of_hop? (not_mem_of_mem_pieces ((List.dropLast_sublist _).subset hpiece)) read
  · split at hm'
    · cases hm'
    · rename_i hne
      cases hm'
      simp [avoids_iff, hne, base, angle]
  · obtain ⟨cs, rfl, rfl⟩ := Option.map_eq_some_iff.mp hn
    have hne : cs ≠ [] := fun e => named (e ▸ rfl)
    simp only [Option.elim_some, List.mem_cons, not_or] at base
    simp [avoids_iff, hne, base]
  · exact wellFormed_of_accesses? (p := .nothing)
      (fun hc => last ((List.dropWhile_sublist _).subset hc)) trivial has
  · split at h
    · rename_i empty
      obtain ⟨rfl, rfl⟩ := bare empty
      exact ⟨rfl, rfl⟩
    · cases h
  · exact nameless (by simpa using h)

theorem wellFormed_of_parse? {text : String} {p : TargetPath} (h : parse? text = some p) :
    p.WellFormed := by
  have behind : ∀ {circuit rest : List Char}, '|' ∉ circuit →
      tail? (String.ofList circuit) rest = some p → p.WellFormed := fun bar h =>
    wellFormed_of_tail? (avoids_iff.mpr (by simpa using bar)) h
  unfold parse? at h
  split at h
  · cases h
  · cases hcut : cut? '|' text.toList with
    | none =>
      have bar := cut?_eq_none_iff.mp hcut
      simp only [hcut, Option.getD_none] at h
      split at h
      · exact behind (fun hc => bar (by simp_all)) h
      · exact behind bar h
    | some parts =>
      have bar := (cut?_eq_some_iff.mp hcut).1
      simp only [hcut, Option.getD_some] at h
      split at h
      · exact behind (fun hc => bar (by simp_all)) h
      · exact behind bar h

/-! ### The dotted spelling -/

/-- A path with a dotted spelling, which has no place for hops. The dots in it part the circuit, the
module and the name. -/
structure Dottable (p : TargetPath) : Prop where
  hops : p.hops = []
  circuit : p.circuit ≠ "" ∧ Avoids p.circuit ['~', '.']

/-- The dotted spelling of a path without hops. -/
def dotted (p : TargetPath) : String :=
  p.circuit ++ p.module.elim "" ("." ++ ·) ++ p.name.elim "" ("." ++ ·) ++
    String.join (p.accesses.map renderAccess)

theorem toList_dotted (p : TargetPath) : p.dotted.toList = p.circuit.toList ++
    ((p.module.elim [] ('.' :: ·.toList)) ++ ((p.name.elim [] ('.' :: ·.toList)) ++
      accessesChars p.accesses)) := by
  rw [dotted]
  cases p.module <;> cases p.name <;> simp [accessesChars, List.flatMap_map]

theorem canonicalChars_append (ha : a ≠ []) (tilde : '~' ∉ a) :
    canonicalChars (a ++ b) = '~' :: replaceDot '>' (replaceDot '|' (a ++ b)) := by
  obtain ⟨c, a, rfl⟩ := List.exists_cons_of_ne_nil ha
  have hc : c ≠ '~' := fun e => tilde (e ▸ List.mem_cons_self)
  rw [List.cons_append, canonicalChars, if_neg hc]

theorem canonical_tilde (s : String) : canonical ("~" ++ s) = "~" ++ s := by
  have chars : canonicalChars ("~" ++ s).toList = ("~" ++ s).toList := by
    simp [canonicalChars]
  rw [canonical, chars, String.ofList_toList]

/-- The dotted spelling with its marks is the other spelling. -/
theorem canonical_dotted {p : TargetPath} (W : p.WellFormed) (D : p.Dottable) :
    canonical p.dotted = p.render := by
  obtain ⟨named, avoids⟩ := D.circuit
  have hdot : '.' ∉ p.circuit.toList := avoids.not_mem (by simp)
  have chars : canonicalChars p.dotted.toList = p.render.toList := by
    rw [toList_dotted, canonicalChars_append (by simpa using named) (avoids.not_mem (by simp)),
      toList_render]
    congr 1
    cases hm : p.module with
    | none =>
      have hn := (W.bare hm).2
      rw [hn, W.nameless hn]
      simp [accessesChars, replaceDot_of_not_mem hdot]
    | some m =>
      have mdot : '.' ∉ m.toList := (W.module m hm).2.not_mem (by simp)
      -- The bar takes the first dot; up to the second one nothing else is changed.
      have front : '.' ∉ p.circuit.toList ++ '|' :: m.toList := by simp [hdot, mdot]
      rw [Option.elim_some, List.cons_append, replaceDot_append hdot]
      cases hn : p.name with
      | none =>
        rw [W.nameless hn]
        simp [accessesChars, tailChars, D.hops, baseChars, replaceDot_of_not_mem front]
      | some n =>
        have second : replaceDot '>' ((p.circuit.toList ++ '|' :: m.toList) ++
            '.' :: (n.toList ++ accessesChars p.accesses)) = _ := replaceDot_append front
        simpa [tailChars, D.hops, baseChars] using second
  rw [canonical, chars, String.ofList_toList]

/-- Reading answers well-formed paths only, and reads every one of them back from both of its
spellings. -/
theorem reading_exact :
    (∀ text p, parse? text = some p → p.WellFormed) ∧
      (∀ p, p.WellFormed → parse? p.render = some p) ∧
      ∀ p, p.WellFormed → p.Dottable → parse? (canonical p.dotted) = some p :=
  ⟨fun _ _ => wellFormed_of_parse?, fun _ => parse?_render,
    fun _ W D => canonical_dotted W D ▸ parse?_render W⟩

/-- A part of a wire behind two instances. -/
def deepPart : TargetPath :=
  { circuit := "Top", hops := [⟨"Top", "left"⟩, ⟨"Mid", "a/b"⟩], module := some "Leaf"
    name := some "w", accesses := [.field "data", .index 3] }

theorem reading_exact_deepPart :
    (parse? "~Top|Top/left:Mid/a/b:Leaf>w.data[3]" = some deepPart ∧ deepPart.WellFormed) ∧
      parse? (canonical "Top.Leaf.w.data[3]") = some { deepPart with hops := [] } := by
  have read : parse? "~Top|Top/left:Mid/a/b:Leaf>w.data[3]" = some deepPart := by
    have written : deepPart.render = "~Top|Top/left:Mid/a/b:Leaf>w.data[3]" := by decide +kernel
    exact written ▸ reading_exact.2.1 deepPart (by decide)
  have dotted : { deepPart with hops := [] }.dotted = "Top.Leaf.w.data[3]" := by decide +kernel
  exact ⟨⟨read, reading_exact.1 _ _ read⟩,
    dotted ▸ reading_exact.2.2 _ (by decide) ⟨rfl, by decide⟩⟩

end TargetPath

end AnnotatedCircuit
