import Mathlib.Data.List.Induction
import PegMachine.Proofs.Semantics.Replacements

/-!
# Formats

What a template writes out, told by the bytes of its format.

* `Fills`, `Fails`: the text of a format, and the fault of the first piece without text.
* `Fills.expand_eq`, `Fails.expand_eq`: writing out a format gives the one or the other.
* `template_values_iff`: **a template is its format with the numbered parts in it, up to the first
  that has no text.**
-/

namespace PegMachine

/-- The decimal digits. -/
def IsDigit (c : UInt8) : Prop := 48 ≤ c ∧ c ≤ 57

/-- The number that a digit stands for. -/
def digitValue (c : UInt8) : Nat := c.toNat - 48

section

variable (shows : Nat → Bytes → Prop) (lacks : Nat → Fault → Prop)

/-- The text of a format whose pieces show texts. A percent sign and a digit give way to a piece, a
percent sign and another byte to that byte, and a percent sign at the end stays. -/
inductive Fills : List UInt8 → Bytes → Prop where
  | nil : Fills [] #[]
  | percent : Fills [37] #[37]
  | piece {c : UInt8} {rest : List UInt8} {text behind : Bytes} (hdigit : IsDigit c)
      (h : shows (digitValue c) text) (hrest : Fills rest behind) :
      Fills (37 :: c :: rest) (text ++ behind)
  | escaped {c : UInt8} {rest : List UInt8} {behind : Bytes} (hdigit : ¬ IsDigit c)
      (hrest : Fills rest behind) : Fills (37 :: c :: rest) (#[c] ++ behind)
  | byte {b : UInt8} {rest : List UInt8} {behind : Bytes} (hbyte : b ≠ 37)
      (hrest : Fills rest behind) : Fills (b :: rest) (#[b] ++ behind)

/-- A piece that a format refers to lacks a text. The fault is that of the first. -/
inductive Fails : List UInt8 → Fault → Prop where
  | here {c : UInt8} {rest : List UInt8} {fault : Fault} (hdigit : IsDigit c)
      (h : lacks (digitValue c) fault) : Fails (37 :: c :: rest) fault
  | piece {c : UInt8} {rest : List UInt8} {text : Bytes} {fault : Fault} (hdigit : IsDigit c)
      (h : shows (digitValue c) text) (hrest : Fails rest fault) : Fails (37 :: c :: rest) fault
  | escaped {c : UInt8} {rest : List UInt8} {fault : Fault} (hdigit : ¬ IsDigit c)
      (hrest : Fails rest fault) : Fails (37 :: c :: rest) fault
  | byte {b : UInt8} {rest : List UInt8} {fault : Fault} (hbyte : b ≠ 37)
      (hrest : Fails rest fault) : Fails (b :: rest) fault

end

open Resolver

section

variable {shows : Nat → Bytes → Prop} {lacks : Nat → Fault → Prop}
  {piece : Nat → Except Fault Bytes} {format : List UInt8} {text : Bytes} {fault : Fault}

/-! ## Writing out -/

theorem expand_byte {b : UInt8} (hbyte : b ≠ 37) (done : Bytes) (rest : List UInt8) :
    expand piece done (b :: rest) = expand piece (done.push b) rest := by
  cases rest with
  | nil => rfl
  | cons c rest => rw [expand, if_neg hbyte]

theorem expand_escaped {c : UInt8} (hdigit : ¬ IsDigit c) (done : Bytes) (rest : List UInt8) :
    expand piece done (37 :: c :: rest) = expand piece (done.push c) rest := by
  rw [expand, if_pos rfl]
  exact if_neg hdigit

theorem expand_piece {c : UInt8} (hdigit : IsDigit c) (done : Bytes) (rest : List UInt8) :
    expand piece done (37 :: c :: rest) =
      piece (digitValue c) >>= fun text => expand piece (done ++ text) rest := by
  rw [expand, if_pos rfl, digitValue]
  refine (if_pos hdigit).trans ?_
  cases piece (c.toNat - 48) <;> rfl

theorem Fills.expand_eq (h : Fills shows format text)
    (hshows : ∀ n text, shows n text → piece n = .ok text) (done : Bytes) :
    expand piece done format = .ok (done ++ text) := by
  induction h generalizing done with
  | nil => simp [expand]
  | percent => simp [expand]
  | piece hdigit h _ ih =>
    rw [expand_piece hdigit, hshows _ _ h, ← Array.append_assoc]
    exact ih _
  | escaped hdigit _ ih => rw [expand_escaped hdigit, ih, ← Array.append_singleton_assoc]
  | byte hbyte _ ih => rw [expand_byte hbyte, ih, ← Array.append_singleton_assoc]

theorem Fails.expand_eq (h : Fails shows lacks format fault)
    (hshows : ∀ n text, shows n text → piece n = .ok text)
    (hlacks : ∀ n fault, lacks n fault → piece n = .error fault) (done : Bytes) :
    expand piece done format = .error fault := by
  induction h generalizing done with
  | here hdigit h =>
    rw [expand_piece hdigit, hlacks _ _ h]
    rfl
  | piece hdigit h _ ih =>
    rw [expand_piece hdigit, hshows _ _ h]
    exact ih _
  | escaped hdigit _ ih => rw [expand_escaped hdigit, ih]
  | byte hbyte _ ih => rw [expand_byte hbyte, ih]

/-- A format is written out, or one of its pieces lacks a text. -/
theorem fills_or_fails (hcases : ∀ n, (∃ text, shows n text) ∨ ∃ fault, lacks n fault)
    (format : List UInt8) :
    (∃ text, Fills shows format text) ∨ ∃ fault, Fails shows lacks format fault := by
  induction format using List.twoStepInduction with
  | nil => exact .inl ⟨_, .nil⟩
  | singleton b =>
    by_cases hbyte : b = 37
    · subst hbyte
      exact .inl ⟨_, .percent⟩
    · exact .inl ⟨_, .byte hbyte .nil⟩
  | cons_cons b c rest ih ihRest =>
    by_cases hbyte : b = 37
    · subst hbyte
      by_cases hdigit : IsDigit c
      · rcases hcases (digitValue c) with ⟨text, hshows⟩ | ⟨fault, hlacks⟩
        · rcases ih with ⟨behind, hrest⟩ | ⟨fault, hrest⟩
          · exact .inl ⟨_, .piece hdigit hshows hrest⟩
          · exact .inr ⟨fault, .piece hdigit hshows hrest⟩
        · exact .inr ⟨fault, .here hdigit hlacks⟩
      · rcases ih with ⟨behind, hrest⟩ | ⟨fault, hrest⟩
        · exact .inl ⟨_, .escaped hdigit hrest⟩
        · exact .inr ⟨fault, .escaped hdigit hrest⟩
    · rcases ihRest c with ⟨behind, hrest⟩ | ⟨fault, hrest⟩
      · exact .inl ⟨_, .byte hbyte hrest⟩
      · exact .inr ⟨fault, .byte hbyte hrest⟩

end

/-! ## Templates -/

/-- **A template is its format with the numbered parts in it, up to the first that has no text.** -/
theorem template_values_iff {shows : Nat → Bytes → Prop} {lacks : Nat → Fault → Prop}
    {subject : Bytes} {start stop : Nat} {nested : List Reading}
    (hcases : ∀ n, (∃ text, shows n text) ∨ ∃ fault, lacks n fault)
    (hshows : ∀ n text, shows n text →
      partText (partsWithin subject start stop nested) n = .ok text)
    (hlacks : ∀ n fault, lacks n fault →
      partText (partsWithin subject start stop nested) n = .error fault)
    (format : Bytes) (arguments : List Value) (bindings : Bindings) :
    (∀ result,
      (Content.template format).values subject arguments bindings start stop nested = .ok result ↔
        ∃ text, Fills shows format.toList text ∧ result = [.str text]) ∧
    ∀ fault,
      (Content.template format).values subject arguments bindings start stop nested =
          .error fault ↔
        Fails shows lacks format.toList fault := by
  refine iff_of_cases (fills_or_fails hcases format.toList) (fun text h => ?_) fun fault h => ?_
  · rw [Content.values, h.expand_eq hshows, Array.empty_append]
    rfl
  · rw [Content.values, h.expand_eq hshows hlacks]
    rfl

end PegMachine
