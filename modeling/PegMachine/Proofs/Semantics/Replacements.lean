import PegMachine.Proofs.Semantics.Readings

/-!
# Replacements

What it takes for a text with replacements to come out, and which fault it is if none does.

* `HasText`, `LacksText`: the text of the first value, and the fault where there is none to be had.
* `Replaces`, `Spoils`: the text with captures replaced, and the fault of the first that cannot be.
* `subst_values_iff`: **the captures nested in a substitution are replaced one after another, up to
  the first that cannot be.**
-/

namespace PegMachine

theorem iff_of_cases {α β ε : Type} {x : Except ε β} {results : α → Prop} {faults : ε → Prop}
    {give : α → β} (hcases : (∃ a, results a) ∨ ∃ fault, faults fault)
    (hok : ∀ a, results a → x = .ok (give a)) (herror : ∀ fault, faults fault → x = .error fault) :
    (∀ b, x = .ok b ↔ ∃ a, results a ∧ b = give a) ∧ ∀ fault, x = .error fault ↔ faults fault := by
  rcases hcases with ⟨a, ha⟩ | ⟨fault, hfault⟩
  · have hx := hok a ha
    refine ⟨fun b => ⟨fun h => ⟨a, ha, ?_⟩, ?_⟩, fun fault => ⟨fun h => ?_, herror fault⟩⟩
    · rw [hx] at h
      exact (Except.ok.inj h).symm
    · rintro ⟨other, hother, rfl⟩
      exact hok other hother
    · rw [hx] at h
      cases h
  · have hx := herror fault hfault
    refine ⟨fun b => ⟨fun h => ?_, ?_⟩, fun other => ⟨fun h => ?_, herror other⟩⟩
    · rw [hx] at h
      cases h
    · rintro ⟨other, hother, rfl⟩
      exact hok other hother
    · rw [hx] at h
      cases h
      exact hfault

/-! ## The text of the first value -/

/-- There are values, and the first one is a string or an integer with the given text. -/
inductive HasText : Values → Bytes → Prop where
  | string {text : Bytes} {rest : List Value} : HasText (.ok (.str text :: rest)) text
  | integer {n : Int} {rest : List Value} : HasText (.ok (.int n :: rest)) (Value.decimal n)

/-- There are no values because of a fault, or the first one is neither a string nor an integer. -/
inductive LacksText : Values → Fault → Prop where
  | fault {fault : Fault} : LacksText (.error fault) fault
  | textless {value : Value} {rest : List Value} (hstring : ∀ text, value ≠ .str text)
      (hinteger : ∀ n, value ≠ .int n) : LacksText (.ok (value :: rest)) .invalidReplacement

theorem HasText.firstText_eq {values : Values} {text : Bytes} (h : HasText values text) :
    (values >>= firstText) = .ok (some text) := by
  cases h <;> rfl

theorem LacksText.firstText_eq {values : Values} {fault : Fault} (h : LacksText values fault) :
    (values >>= firstText) = .error fault := by
  cases h with
  | fault => rfl
  | @textless value _ hstring hinteger =>
    cases value with
    | str text => exact absurd rfl (hstring text)
    | int n => exact absurd rfl (hinteger n)
    | nil | bool | list => rfl

theorem hasText_or_lacksText (values : Values) :
    (∃ text, HasText values text) ∨ values = .ok [] ∨ ∃ fault, LacksText values fault := by
  cases values with
  | error fault => exact .inr (.inr ⟨fault, .fault⟩)
  | ok values =>
    cases values with
    | nil => exact .inr (.inl rfl)
    | cons value rest =>
      cases value with
      | str text => exact .inl ⟨text, .string⟩
      | int n => exact .inl ⟨_, .integer⟩
      | nil | bool | list => exact .inr (.inr ⟨_, .textless nofun nofun⟩)

/-! ## Texts with replacements -/

/-- The subject from `used` to `stop` with captures replaced. What lies before each of them stays, a
capture gives way to the text of its first value, and one without values stays as well. -/
inductive Replaces (subject : Bytes) (stop : Nat) : (used : Nat) → List Reading → Bytes → Prop where
  | nil {used : Nat} : Replaces subject stop used [] (subject.extract used stop)
  | text {used : Nat} {reading : Reading} {rest : List Reading} {text behind : Bytes}
      (h : HasText reading.values text) (hrest : Replaces subject stop reading.stop rest behind) :
      Replaces subject stop used (reading :: rest)
        (subject.extract used reading.start ++ text ++ behind)
  | kept {used : Nat} {reading : Reading} {rest : List Reading} {behind : Bytes}
      (h : reading.values = .ok []) (hrest : Replaces subject stop reading.stop rest behind) :
      Replaces subject stop used (reading :: rest)
        (subject.extract used reading.start ++ subject.extract reading.start reading.stop ++ behind)

/-- One of the captures can neither be replaced nor stay. The fault is that of the first. -/
inductive Spoils : List Reading → Fault → Prop where
  | here {reading : Reading} {rest : List Reading} {fault : Fault}
      (h : LacksText reading.values fault) : Spoils (reading :: rest) fault
  | behind {reading : Reading} {rest : List Reading} {fault : Fault}
      (h : reading.values = .ok [] ∨ ∃ text, HasText reading.values text)
      (hrest : Spoils rest fault) : Spoils (reading :: rest) fault

section

variable {subject text : Bytes} {used stop : Nat} {reading : Reading} {readings : List Reading}
  {fault : Fault}

theorem replaced_cons : replaced subject used stop (reading :: readings) = do
    let text ← reading.values >>= firstText
    let behind ← replaced subject reading.stop stop readings
    return subject.extract used reading.start ++
      text.getD (subject.extract reading.start reading.stop) ++ behind := by
  rw [replaced]
  cases reading.values <;> rfl

theorem Replaces.replaced_eq (h : Replaces subject stop used readings text) :
    replaced subject used stop readings = .ok text := by
  induction h with
  | nil => rfl
  | text h _ ih =>
    rw [replaced_cons, h.firstText_eq, ih]
    rfl
  | kept h _ ih =>
    rw [replaced_cons, h, ih]
    rfl

theorem Spoils.replaced_eq (h : Spoils readings fault) (subject : Bytes) (used stop : Nat) :
    replaced subject used stop readings = .error fault := by
  induction h generalizing used with
  | here h =>
    rw [replaced_cons, h.firstText_eq]
    rfl
  | behind h _ ih =>
    rw [replaced_cons, ih]
    rcases h with h | ⟨text, h⟩
    · rw [h]
      rfl
    · rw [h.firstText_eq]
      rfl

/-- Captures can be replaced, or one of them spoils the text. -/
theorem replaces_or_spoils (subject : Bytes) (stop used : Nat) (readings : List Reading) :
    (∃ text, Replaces subject stop used readings text) ∨ ∃ fault, Spoils readings fault := by
  induction readings generalizing used with
  | nil => exact .inl ⟨_, .nil⟩
  | cons reading rest ih =>
    rcases hasText_or_lacksText reading.values with ⟨text, htext⟩ | hempty | ⟨fault, hlacks⟩
    · rcases ih reading.stop with ⟨behind, hrest⟩ | ⟨fault, hspoils⟩
      · exact .inl ⟨_, .text htext hrest⟩
      · exact .inr ⟨fault, .behind (.inr ⟨text, htext⟩) hspoils⟩
    · rcases ih reading.stop with ⟨behind, hrest⟩ | ⟨fault, hspoils⟩
      · exact .inl ⟨_, .kept hempty hrest⟩
      · exact .inr ⟨fault, .behind (.inl hempty) hspoils⟩
    · exact .inr ⟨fault, .here hlacks⟩

/-- **The captures nested in a substitution are replaced one after another, up to the first that can
neither be replaced nor stay.** -/
theorem subst_values_iff (subject : Bytes) (arguments : List Value) (bindings : Bindings)
    (start stop : Nat) (nested : List Reading) :
    (∀ result, Content.subst.values subject arguments bindings start stop nested = .ok result ↔
      ∃ text, Replaces subject stop start nested text ∧ result = [.str text]) ∧
    ∀ fault, Content.subst.values subject arguments bindings start stop nested = .error fault ↔
      Spoils nested fault := by
  refine iff_of_cases (replaces_or_spoils subject stop start nested) (fun text h => ?_)
    fun fault h => ?_
  · rw [Content.values, h.replaced_eq]
    rfl
  · rw [Content.values, h.replaced_eq]
    rfl

end

end PegMachine
