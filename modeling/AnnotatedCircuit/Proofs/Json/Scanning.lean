import AnnotatedCircuit.Json.Printer
import AnnotatedCircuit.Proofs.Json.Number

/-!
# Finding the tokens of a printed value

A value is printed as the text of its tokens, with blanks between them (`Scan.scan_lines`). Numbers
and literals end where a character follows that they cannot have, so the automaton may still be
inside the last one (`Scan.settle?`).
-/

namespace AnnotatedCircuit

open Json in
/-- The text of a number is read as a floating-point number. -/
structure Binary64.Legible (x : Binary64) : Prop where
  word : ∀ c ∈ x.text, isWordChar c = true
  read : ∃ y, atom? x.text = some (.value (.double y))

namespace Json

mutual

/-- The numbers in a value can be read back from its text: integers have 64 bits. -/
def Plain : Json → Prop
  | .int n => -0x8000000000000000 ≤ n ∧ n < 0x10000000000000000
  | .double x => x.Legible
  | .arr items => PlainItems items
  | .obj members => PlainMembers members
  | _ => True

def PlainItems : List Json → Prop
  | [] => True
  | v :: vs => v.Plain ∧ PlainItems vs

def PlainMembers : List (String × Json) → Prop
  | [] => True
  | (_, v) :: ms => v.Plain ∧ PlainMembers ms

end

mutual

/-- The tokens in the text of a value. -/
def tokens : Json → List Token
  | .arr [] => [.openArray, .closeArray]
  | .arr (v :: vs) => .openArray :: (v.tokens ++ tokensItems vs ++ [.closeArray])
  | .obj [] => [.openObject, .closeObject]
  | .obj ((k, v) :: ms) =>
    .openObject :: .str (some k) :: .colon :: (v.tokens ++ tokensMembers ms ++ [.closeObject])
  | .str s => [.str (some s)]
  | v => [.atom ((atom? v.leaf).getD .unreadable)]

/-- The tokens of further items. -/
def tokensItems : List Json → List Token
  | [] => []
  | v :: vs => .comma :: (v.tokens ++ tokensItems vs)

/-- The tokens of further members. -/
def tokensMembers : List (String × Json) → List Token
  | [] => []
  | (k, v) :: ms => .comma :: .str (some k) :: .colon :: (v.tokens ++ tokensMembers ms)

end

/-! ### Between tokens -/

/-- The automaton when the word under way, if there is one, ends. -/
def Scan.settle? (s : Scan) : Option Scan :=
  match s.mode with
  | .between => some s
  | .word cs => (atom? cs.reverse).map fun v => ⟨.between, .atom v :: s.tokens⟩
  | _ => none

namespace Scan

variable {s : Scan} {ts : List Token} {c : Char}

theorem settle?_between (ts : List Token) : settle? ⟨.between, ts⟩ = some ⟨.between, ts⟩ := rfl

theorem step?_of_settle? (h : s.settle? = some ⟨.between, ts⟩) (hc : isWordChar c = false) :
    s.step? c = start? ts c := by
  obtain ⟨mode, tokens⟩ := s
  cases mode with
  | between =>
    cases h
    rfl
  | word cs =>
    obtain ⟨v, hv, e⟩ := Option.map_eq_some_iff.mp h
    cases e
    simp [step?, hc, hv]
  | _ => cases h

theorem finish?_of_settle? (h : s.settle? = some ⟨.between, ts⟩) : s.finish? = some ts.reverse := by
  obtain ⟨mode, tokens⟩ := s
  cases mode with
  | between =>
    cases h
    rfl
  | word cs =>
    obtain ⟨v, hv, e⟩ := Option.map_eq_some_iff.mp h
    cases e
    simp [finish?, hv]
  | _ => cases h

theorem scan_append {s' : Scan} {cs : List Char} (h : cs.foldlM step? s = some s')
    (rest : List Char) : (cs ++ rest).foldlM step? s = rest.foldlM step? s' := by
  rw [List.foldlM_append, h]
  rfl

theorem scan_blanks (n : Nat) (ts : List Token) :
    (List.replicate n ' ').foldlM step? ⟨.between, ts⟩ = some ⟨.between, ts⟩ := by
  induction n with
  | zero => rfl
  | succ n ih => exact ih

theorem scan_newline (level : Nat) (h : s.settle? = some ⟨.between, ts⟩) :
    (newline level).foldlM step? s = some ⟨.between, ts⟩ := by
  rw [newline, List.foldlM_cons, step?_of_settle? h rfl]
  exact scan_blanks _ ts

/-- A word is read up to its last character. -/
theorem scan_word {c : Char} {cs : List Char} (hc : ∀ c' ∈ c :: cs, isWordChar c' = true)
    (ts : List Token) :
    (c :: cs).foldlM step? ⟨.between, ts⟩ = some ⟨.word (c :: cs).reverse, ts⟩ := by
  obtain ⟨hfirst, hrest⟩ := List.forall_mem_cons.mp hc
  have start : start? ts c = some ⟨.word [c], ts⟩ := by
    have other : ∀ c' : Char, isWordChar c' = false → c ≠ c' := by
      rintro c' h rfl
      rw [hfirst] at h
      cases h
    have blank : isBlank c = false := by
      simp [isBlank, other ' ' rfl, other '\t' rfl, other '\n' rfl, other '\r' rfl]
    rw [start?, if_neg (by simp [blank]), if_neg (other _ rfl), if_neg (other _ rfl),
      if_neg (other _ rfl), if_neg (other _ rfl), if_neg (other _ rfl), if_neg (other _ rfl),
      if_neg (other _ rfl), if_pos hfirst]
  have further : ∀ (cs read : List Char), (∀ c' ∈ cs, isWordChar c' = true) →
      cs.foldlM step? ⟨.word read, ts⟩ = some ⟨.word (cs.reverse ++ read), ts⟩ := by
    intro cs
    induction cs with
    | nil => exact fun _ _ => rfl
    | cons c cs ih =>
      intro read h
      obtain ⟨hc, hcs⟩ := List.forall_mem_cons.mp h
      have step : step? ⟨.word read, ts⟩ c = some ⟨.word (c :: read), ts⟩ := by simp [step?, hc]
      rw [List.foldlM_cons, step]
      refine (ih (c :: read) hcs).trans ?_
      rw [List.reverse_cons, List.append_assoc]
      rfl
  rw [List.foldlM_cons]
  exact (congrArg (· >>= _) start).trans ((further cs [c] hrest).trans (by rw [List.reverse_cons]))

end Scan

/-! ### Strings -/

open Scan

theorem hexValue?_digitChar : ∀ n < 16, hexValue? (Nat.digitChar n) = some n := by decide

/-- A character is read back from its escape. -/
theorem scan_escapeChar (c : Char) (units : List Nat) (ts : List Token) :
    (escapeChar c).foldlM step? ⟨.text units, ts⟩ = some ⟨.text (c.toNat :: units), ts⟩ := by
  unfold escapeChar
  split
  · subst c; rfl
  split
  · subst c; rfl
  split
  · subst c; rfl
  split
  · subst c; rfl
  split
  · subst c; rfl
  split
  · next h => rw [h]; rfl
  split
  · next h => rw [h]; rfl
  split
  · next h =>
    have high := hexValue?_digitChar (c.toNat / 16) (by omega)
    have low := hexValue?_digitChar (c.toNat % 16) (by omega)
    have zero : hexValue? '0' = some 0 := rfl
    simp only [List.foldlM_cons, List.foldlM_nil, step?]
    simp [high, low, zero, Nat.div_add_mod']
  · next quote backslash _ _ _ _ _ plain =>
    rw [List.foldlM_cons, step?]
    simp [quote, backslash, plain]

theorem scan_escaped (cs : List Char) (units : List Nat) (ts : List Token) :
    (cs.flatMap escapeChar).foldlM step? ⟨.text units, ts⟩ =
      some ⟨.text ((cs.map Char.toNat).reverse ++ units), ts⟩ := by
  induction cs generalizing units with
  | nil => rfl
  | cons c cs ih =>
    rw [List.flatMap_cons, List.foldlM_append, scan_escapeChar]
    refine (ih _).trans ?_
    simp

/-- The code points of characters spell them. -/
theorem textOfUnits?_toNat (cs : List Char) :
    textOfUnits? (cs.map Char.toNat) = some (String.ofList cs) := by
  have pushed : ∀ (cs read : List Char), (cs.map Char.toNat).foldlM Spelling.push? ⟨read, none⟩ =
      some ⟨cs.reverse ++ read, none⟩ := by
    intro cs
    induction cs with
    | nil => exact fun _ => rfl
    | cons c cs ih =>
      intro read
      have push : Spelling.push? ⟨read, none⟩ c.toNat = some ⟨c :: read, none⟩ := by
        have valid : c.toNat < 0xD800 ∨ 0xDFFF < c.toNat ∧ c.toNat < 0x110000 := c.valid
        have low : isLowSurrogate c.toNat = false := by
          simp only [isLowSurrogate, Bool.and_eq_false_iff, decide_eq_false_iff_not]
          omega
        have high : isHighSurrogate c.toNat = false := by
          simp only [isHighSurrogate, Bool.and_eq_false_iff, decide_eq_false_iff_not]
          omega
        simp [Spelling.push?, low, high, Char.ofNat_toNat]
      rw [List.map_cons, List.foldlM_cons, push]
      refine (ih (c :: read)).trans ?_
      rw [List.reverse_cons, List.append_assoc]
      rfl
  rw [textOfUnits?, pushed]
  simp

theorem scan_quote (k : String) (ts : List Token) :
    (quote k).foldlM step? ⟨.between, ts⟩ = some ⟨.between, .str (some k) :: ts⟩ := by
  have opened : step? ⟨.between, ts⟩ '"' = some ⟨.text [], ts⟩ := rfl
  rw [quote, List.foldlM_cons, opened]
  refine (List.foldlM_append ..).trans ?_
  rw [scan_escaped]
  simp [step?, textOfUnits?_toNat]

/-! ### Values -/

section

variable {level : Nat} {v : Json} {i : Input} {ts : List Token}

/-- A literal or number is scanned as one word. -/
theorem scan_atom (cs : List Char) (word : ∀ c ∈ cs, isWordChar c = true) (hi : atom? cs = some i)
    (ts : List Token) :
    ∃ s, cs.foldlM step? ⟨.between, ts⟩ = some s ∧ s.settle? = some ⟨.between, .atom i :: ts⟩ := by
  cases cs with
  | nil => cases hi
  | cons c cs => exact ⟨_, scan_word word ts, by simp [settle?, hi]⟩

/-- A step that is taken from a scan that is settled or can be. -/
theorem scan_separator {s : Scan} {c : Char} {t : Token} (cs : List Char)
    (hs : s.settle? = some ⟨.between, ts⟩) (hc : isWordChar c = false)
    (ht : start? ts c = some ⟨.between, t :: ts⟩) :
    (c :: cs).foldlM step? s = cs.foldlM step? ⟨.between, t :: ts⟩ := by
  rw [List.foldlM_cons, step?_of_settle? hs hc, ht]
  rfl

mutual

/-- The tokens of a value are found in its text. -/
theorem scan_lines : (v : Json) → (level : Nat) → (ts : List Token) → v.Plain →
    ∃ s, (v.lines level).foldlM step? ⟨.between, ts⟩ = some s ∧
      s.settle? = some ⟨.between, v.tokens.reverse ++ ts⟩
  | .null, level, ts, _ => scan_atom "null".toList (List.all_eq_true.mp (by decide)) rfl ts
  | .bool true, level, ts, _ => scan_atom "true".toList (List.all_eq_true.mp (by decide)) rfl ts
  | .bool false, level, ts, _ => scan_atom "false".toList (List.all_eq_true.mp (by decide)) rfl ts
  | .int n, level, ts, hv => by
    have hi := atom?_int hv.1 hv.2
    have one : (int n).tokens = [.atom (.value (.int n))] :=
      congrArg (fun j : Option Input => [Token.atom (j.getD .unreadable)]) hi
    rw [one]
    exact scan_atom _ (isWordChar_toString n) hi ts
  | .double x, level, ts, hv => by
    obtain ⟨y, hy⟩ := hv.read
    have one : (double x).tokens = [.atom (.value (.double y))] :=
      congrArg (fun j : Option Input => [Token.atom (j.getD .unreadable)]) hy
    rw [one]
    exact scan_atom _ hv.word hy ts
  | .str s, level, ts, _ => ⟨_, scan_quote s ts, rfl⟩
  | .arr [], level, ts, _ => ⟨_, rfl, rfl⟩
  | .obj [], level, ts, _ => ⟨_, rfl, rfl⟩
  | .arr (v :: vs), level, ts, hv => by
    obtain ⟨s₁, h₁, settled₁⟩ := scan_lines v (level + 1) (.openArray :: ts) hv.1
    obtain ⟨s₂, h₂, settled₂⟩ := scan_linesItems vs (level + 1) settled₁ hv.2
    refine ⟨⟨.between, (arr (v :: vs)).tokens.reverse ++ ts⟩, ?_, rfl⟩
    simp only [lines, List.append_assoc]
    refine (scan_append (scan_newline (level + 1) (settle?_between _)) _).trans ?_
    refine (scan_append h₁ _).trans ((scan_append h₂ _).trans ?_)
    refine (scan_append (scan_newline level settled₂) _).trans ?_
    simp only [tokens, List.reverse_cons, List.reverse_append, List.append_assoc]
    rfl
  | .obj ((k, v) :: ms), level, ts, hv => by
    obtain ⟨s₁, h₁, settled₁⟩ :=
      scan_lines v (level + 1) (.colon :: .str (some k) :: .openObject :: ts) hv.1
    obtain ⟨s₂, h₂, settled₂⟩ := scan_linesMembers ms (level + 1) settled₁ hv.2
    refine ⟨⟨.between, (obj ((k, v) :: ms)).tokens.reverse ++ ts⟩, ?_, rfl⟩
    simp only [lines, List.append_assoc, List.cons_append]
    refine (scan_append (scan_newline (level + 1) (settle?_between _)) _).trans ?_
    refine (scan_append (scan_quote k _) _).trans ?_
    refine (scan_append h₁ _).trans ((scan_append h₂ _).trans ?_)
    refine (scan_append (scan_newline level settled₂) _).trans ?_
    simp only [tokens, List.reverse_cons, List.reverse_append, List.append_assoc]
    rfl

theorem scan_linesItems : (vs : List Json) → (level : Nat) → {s : Scan} → {ts : List Token} →
    s.settle? = some ⟨.between, ts⟩ → PlainItems vs →
    ∃ s', (linesItems level vs).foldlM step? s = some s' ∧
      s'.settle? = some ⟨.between, (tokensItems vs).reverse ++ ts⟩
  | [], level, s, ts, hs, _ => ⟨s, rfl, hs⟩
  | v :: vs, level, s, ts, hs, hv => by
    obtain ⟨s₁, h₁, settled₁⟩ := scan_lines v level (.comma :: ts) hv.1
    obtain ⟨s₂, h₂, settled₂⟩ := scan_linesItems vs level settled₁ hv.2
    refine ⟨s₂, ?_, by simpa [tokensItems] using settled₂⟩
    simp only [linesItems, List.append_assoc]
    refine (scan_separator _ hs rfl rfl).trans ?_
    refine (scan_append (scan_newline level (settle?_between _)) _).trans ?_
    exact (scan_append h₁ _).trans h₂

theorem scan_linesMembers : (ms : List (String × Json)) → (level : Nat) → {s : Scan} →
    {ts : List Token} → s.settle? = some ⟨.between, ts⟩ → PlainMembers ms →
    ∃ s', (linesMembers level ms).foldlM step? s = some s' ∧
      s'.settle? = some ⟨.between, (tokensMembers ms).reverse ++ ts⟩
  | [], level, s, ts, hs, _ => ⟨s, rfl, hs⟩
  | (k, v) :: ms, level, s, ts, hs, hv => by
    obtain ⟨s₁, h₁, settled₁⟩ := scan_lines v level (.colon :: .str (some k) :: .comma :: ts) hv.1
    obtain ⟨s₂, h₂, settled₂⟩ := scan_linesMembers ms level settled₁ hv.2
    refine ⟨s₂, ?_, by simpa [tokensMembers] using settled₂⟩
    simp only [linesMembers, List.append_assoc, List.cons_append]
    refine (scan_separator _ hs rfl rfl).trans ?_
    refine (scan_append (scan_newline level (settle?_between _)) _).trans ?_
    refine (scan_append (scan_quote k _) _).trans ?_
    exact (scan_append h₁ _).trans h₂

end

end

/-- The tokens of a printed value. -/
theorem scan?_pretty {v : Json} (hv : v.Plain) : Token.scan? v.pretty.toList = some v.tokens := by
  obtain ⟨s, hs, settled⟩ := scan_lines v 0 [] hv
  rw [pretty, String.toList_ofList, Token.scan?, hs]
  refine (finish?_of_settle? settled).trans ?_
  rw [List.append_nil, List.reverse_reverse]

/-- A new line behind a printed value does no harm. -/
theorem scan?_pretty_newline {v : Json} (hv : v.Plain) :
    Token.scan? (v.pretty ++ "\n").toList = some v.tokens := by
  obtain ⟨s, hs, settled⟩ := scan_lines v 0 [] hv
  rw [String.toList_append, pretty, String.toList_ofList, Token.scan?, scan_append hs]
  refine (congrArg (Option.bind · finish?) (scan_newline 0 settled)).trans ?_
  refine (finish?_of_settle? (settle?_between _)).trans ?_
  rw [List.append_nil, List.reverse_reverse]

end Json

end AnnotatedCircuit
