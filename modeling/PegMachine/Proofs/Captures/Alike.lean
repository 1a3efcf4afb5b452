import Mathlib.Data.List.Forall2
import PegMachine.Capture.Resolve

/-!
# Captures that refer to the same constants

The values of captures depend on the constants that their entries refer to, not on the numbers of
these constants.

* `Entry.Alike`: entries that differ only in the numbers of the constants of two programs.
* `Resolver.Alike`: lists of such entries, resolved with the same subject and arguments.
* `Resolver.Alike.resolve_eq`, `Resolver.Alike.nested_eq`: **they have the same values.**
-/

namespace PegMachine

/-- What captures of a kind refer to: the same argument or the same constant. -/
inductive Refers (program program' : Program) : CaptureKind → Nat → Nat → Prop where
  | argument (n : Nat) : Refers program program' .argument n n
  | constant {kind : CaptureKind} {index index' : Nat} (hkind : kind ≠ .argument)
      (h : program'.constant? index' = program.constant? index) (hzero : index' = 0 ↔ index = 0) :
      Refers program program' kind index index'

/-- Entries that differ only in the numbers of the constants of two programs. -/
inductive Entry.Alike (program program' : Program) : Entry → Entry → Prop where
  | opened {kind : CaptureKind} {index index' : Nat} (pos : Nat) (hkind : kind ≠ .argument)
      (h : Refers program program' kind index index') :
      Alike program program' (.opened kind index pos) (.opened kind index' pos)
  | full {kind : CaptureKind} {index index' : Nat} (pos length : Nat)
      (h : Refers program program' kind index index') :
      Alike program program' (.full kind index pos length) (.full kind index' pos length)
  | closed (pos : Nat) : Alike program program' (.closed pos) (.closed pos)
  | dynamic (start stop : Nat) (values : List Value) :
      Alike program program' (.dynamic start stop values) (.dynamic start stop values)

/-- Lists of such entries. -/
def EntriesAlike (program program' : Program) (entries entries' : Array Entry) : Prop :=
  List.Forall₂ (Entry.Alike program program') entries.toList entries'.toList

section

variable {program program' : Program} {entries entries' : Array Entry} {entry entry' : Entry}

theorem Entry.Alike.start_eq (h : Alike program program' entry entry') :
    entry'.start = entry.start := by
  cases h <;> rfl

theorem Entry.Alike.kind?_eq (h : Alike program program' entry entry') :
    entry'.kind? = entry.kind? := by
  cases h <;> rfl

/-- Captures other than those of arguments refer to the same constant. -/
theorem Refers.constant?_eq {kind : CaptureKind} {index index' : Nat}
    (h : Refers program program' kind index index') (hkind : kind ≠ .argument) :
    program'.constant? index' = program.constant? index := by
  cases h with
  | argument => exact absurd rfl hkind
  | constant _ h => exact h

theorem Entry.Alike.isGroup_eq (h : Alike program program' entry entry') (name : String) :
    isGroup program' name entry' = isGroup program name entry := by
  cases h with
  | @opened kind _ _ _ _ h | @full kind _ _ _ _ h =>
    by_cases hkind : kind = .group
    · subst hkind
      rw [isGroup, isGroup, h.constant?_eq nofun]
    · cases kind <;> first | rfl | exact absurd rfl hkind
  | closed | dynamic => rfl

namespace EntriesAlike

variable (h : EntriesAlike program program' entries entries')

include h

theorem size_eq : entries'.size = entries.size := by
  rw [← Array.length_toList, ← Array.length_toList]
  exact h.length_eq.symm

theorem getElem? (i : Nat) :
    Option.Rel (Entry.Alike program program') entries[i]? entries'[i]? := by
  rw [← Array.getElem?_toList, ← Array.getElem?_toList]
  unfold EntriesAlike at h
  generalize entries.toList = list at h
  generalize entries'.toList = list' at h
  induction h generalizing i with
  | nil => exact .none
  | cons hhead _ ih =>
    cases i with
    | zero => exact .some hhead
    | succ i => exact ih i

theorem back? : Option.Rel (Entry.Alike program program') entries.back? entries'.back? := by
  rw [Array.back?_eq_getElem?, Array.back?_eq_getElem?, h.size_eq]
  exact h.getElem? _

/-! ## Changes -/

theorem push (hentry : Entry.Alike program program' entry entry') :
    EntriesAlike program program' (entries.push entry) (entries'.push entry') := by
  rw [EntriesAlike, Array.toList_push, Array.toList_push]
  exact List.rel_append h (.cons hentry .nil)

theorem shrink (n : Nat) :
    EntriesAlike program program' (entries.shrink n) (entries'.shrink n) := by
  rw [EntriesAlike, Array.toList_shrink, Array.toList_shrink]
  exact List.forall₂_take n h

theorem pop : EntriesAlike program program' entries.pop entries'.pop := by
  rw [EntriesAlike, Array.toList_pop, Array.toList_pop, List.dropLast_eq_take,
    List.dropLast_eq_take, ← h.length_eq]
  exact List.forall₂_take _ h

/-! ## Bracketing -/

theorem openBelow?_eq (depth limit : Nat) :
    Entry.openBelow? entries' depth limit = Entry.openBelow? entries depth limit := by
  induction limit generalizing depth with
  | zero => rfl
  | succ i ih =>
    have hi := h.getElem? i
    unfold Entry.openBelow?
    generalize entries[i]? = found at hi
    generalize entries'[i]? = found' at hi
    cases hi with
    | none => exact ih depth
    | some hi =>
      cases hi with
      | opened => cases depth <;> simp only [ih]
      | closed | full | dynamic => exact ih _

theorem innermostOpen?_eq : Entry.innermostOpen? entries' = Entry.innermostOpen? entries := by
  rw [Entry.innermostOpen?, Entry.innermostOpen?, h.size_eq, h.openBelow?_eq]

theorem afterClose?_eq (depth i : Nat) :
    Entry.afterClose? entries' depth i = Entry.afterClose? entries depth i := by
  induction hn : entries.size - i using Nat.strongRecOn generalizing depth i with
  | ind n ih =>
    rw [Entry.afterClose?.eq_def entries', Entry.afterClose?.eq_def entries]
    by_cases hlt : i < entries.size
    · have hi := h.getElem? i
      have hlt' : i < entries'.size := h.size_eq ▸ hlt
      have ih' := fun depth => ih (entries.size - (i + 1)) (by omega) depth (i + 1) rfl
      rw [dif_pos hlt, dif_pos hlt']
      rw [Array.getElem?_eq_getElem hlt, Array.getElem?_eq_getElem hlt'] at hi
      generalize entries[i] = found at hi
      generalize entries'[i] = found' at hi
      cases hi with
      | some hi => cases hi <;> simp only [ih']
    · rw [dif_neg hlt, dif_neg (h.size_eq ▸ hlt)]

theorem after?_eq (i : Nat) : Entry.after? entries' i = Entry.after? entries i := by
  have hi := h.getElem? i
  rw [Entry.after?, Entry.after?, h.afterClose?_eq]
  generalize entries[i]? = found at hi
  generalize entries'[i]? = found' at hi
  cases hi with
  | none => rfl
  | some hi => cases hi <;> rfl

theorem stop?_eq (i : Nat) : Entry.stop? entries' i = Entry.stop? entries i := by
  have hstart : ∀ k : Nat, entries'[k]?.map Entry.start = entries[k]?.map Entry.start := by
    intro k
    have hk := h.getElem? k
    generalize entries[k]? = found at hk
    generalize entries'[k]? = found' at hk
    cases hk with
    | none => rfl
    | some hk => exact congrArg some hk.start_eq
  have hi := h.getElem? i
  rw [Entry.stop?, Entry.stop?, h.afterClose?_eq]
  generalize entries[i]? = found at hi
  generalize entries'[i]? = found' at hi
  cases hi with
  | none => rfl
  | some hi =>
    cases hi with
    | opened =>
      cases Entry.afterClose? entries 0 i with
      | none => rfl
      | some next =>
        have := hstart (next - 1)
        rw [Option.map_eq_bind, Option.map_eq_bind] at this
        exact this
    | full | closed | dynamic => rfl

/-! ## Groups -/

theorem groupBelow_eq (name : String) (depth limit : Nat) :
    Entry.groupBelow program' name entries' depth limit =
      Entry.groupBelow program name entries depth limit := by
  induction limit generalizing depth with
  | zero => cases depth <;> rfl
  | succ i ih =>
    have hi := h.getElem? i
    rw [Entry.groupBelow, Entry.groupBelow]
    generalize entries[i]? = found at hi
    generalize entries'[i]? = found' at hi
    cases hi with
    | none => exact ih depth
    | some hi =>
      have hgroup := hi.isGroup_eq name
      cases hi with
      | opened =>
        match depth with
        | 0 => exact ih 0
        | 1 => simp only [hgroup, ih]
        | depth + 2 => exact ih _
      | full | dynamic => simp only [hgroup, ih]
      | closed => exact ih _

end EntriesAlike

end

/-! ## Values -/

/-- Lists of such entries, resolved with the same subject and arguments. -/
structure Resolver.Alike (r r' : Resolver) : Prop where
  subject : r'.subject = r.subject
  arguments : r'.arguments = r.arguments
  entries : EntriesAlike r.program r'.program r.entries r'.entries

namespace Resolver.Alike

variable {r r' : Resolver} (h : r.Alike r') {σ : Type} {resolve : Nat → Except Fault Yield}

include h

theorem text_eq (start stop : Nat) : r'.text start stop = r.text start stop := by
  rw [text, text, h.subject]

theorem walk_eq (visit : σ → Nat → Except Fault (σ × Nat)) (cursor : Nat) (state : σ) :
    walk r'.entries visit cursor state = walk r.entries visit cursor state := by
  induction hn : r.entries.size - cursor using Nat.strongRecOn generalizing cursor state with
  | ind n ih =>
    rw [walk.eq_def r'.entries, walk.eq_def r.entries]
    by_cases hlt : cursor < r.entries.size
    · have hi := h.entries.getElem? cursor
      have hlt' : cursor < r'.entries.size := h.entries.size_eq ▸ hlt
      rw [dif_pos hlt, dif_pos hlt']
      rw [Array.getElem?_eq_getElem hlt, Array.getElem?_eq_getElem hlt'] at hi
      have hrest : ∀ next state, cursor < next →
          walk r'.entries visit next state = walk r.entries visit next state :=
        fun next state hnext => ih (r.entries.size - next) (by omega) next state rfl
      generalize r.entries[cursor] = found at hi
      generalize r'.entries[cursor] = found' at hi
      cases hi with
      | some hi =>
        cases hi with
        | closed => rfl
        | opened | full | dynamic =>
          dsimp only
          cases visit state cursor with
          | error fault => rfl
          | ok visited =>
            dsimp only
            split
            · next hnext => exact hrest _ _ hnext
            · rfl
    · rw [dif_neg hlt, dif_neg (h.entries.size_eq ▸ hlt)]

theorem inside_eq (visit : σ → Nat → Except Fault (σ × Nat)) (init : Nat → σ) (cursor : Nat) :
    r'.inside visit init cursor = r.inside visit init cursor := by
  have hi := h.entries.getElem? cursor
  rw [inside, inside]
  simp only [h.walk_eq]
  generalize r.entries[cursor]? = found at hi
  generalize r'.entries[cursor]? = found' at hi
  cases hi with
  | none => rfl
  | some hi => cases hi <;> rfl

theorem collect_eq (cursor : Nat) : r'.collect resolve cursor = r.collect resolve cursor :=
  h.inside_eq _ _ cursor

theorem nestedOrText_eq (cursor : Nat) :
    r'.nestedOrText resolve cursor = r.nestedOrText resolve cursor := by
  simp only [nestedOrText, h.collect_eq, h.text_eq]

theorem textAndNested_eq (cursor : Nat) :
    r'.textAndNested resolve cursor = r.textAndNested resolve cursor := by
  simp only [textAndNested, h.collect_eq, h.text_eq]

theorem backref_eq (name : String) (cursor : Nat) :
    r'.backref resolve name cursor = r.backref resolve name cursor := by
  simp only [backref, h.entries.groupBelow_eq, h.nestedOrText_eq]

theorem fold_eq (f : FoldFunction) (cursor : Nat) :
    r'.fold resolve f cursor = r.fold resolve f cursor := by
  simp only [fold, h.inside_eq]

theorem replace_eq : r'.replace resolve = r.replace resolve := by
  funext state cursor
  have hi := h.entries.getElem? cursor
  simp only [replace, h.entries.stop?_eq, h.text_eq]
  generalize r.entries[cursor]? = found at hi
  generalize r'.entries[cursor]? = found' at hi
  cases hi with
  | none => rfl
  | some hi => simp only [present, bind, Except.bind, hi.start_eq]

theorem substitute_eq (cursor : Nat) :
    r'.substitute resolve cursor = r.substitute resolve cursor := by
  simp only [substitute, h.replace_eq, h.inside_eq, h.text_eq]

theorem addPieces_eq (inner : Nat → Nat → Except Fault (Array Piece × Nat)) (taken : Nat) :
    r'.addPieces inner taken = r.addPieces inner taken := by
  funext found cursor
  have hkind : r'.entries[cursor]?.bind Entry.kind? = r.entries[cursor]?.bind Entry.kind? := by
    have hi := h.entries.getElem? cursor
    generalize r.entries[cursor]? = found at hi
    generalize r'.entries[cursor]? = found' at hi
    cases hi with
    | none => rfl
    | some hi => exact hi.kind?_eq
  simp only [addPieces, hkind, h.entries.after?_eq]

theorem pieces_eq (depth : Nat) : r'.pieces depth = r.pieces depth := by
  induction depth with
  | zero => rfl
  | succ depth ih =>
    funext taken cursor
    simp only [pieces, ih, h.addPieces_eq, h.inside_eq]

theorem pieceText_eq (found : Array Piece) :
    r'.pieceText resolve found = r.pieceText resolve found := by
  funext n
  simp only [pieceText, h.text_eq]

theorem fill_eq (format : Bytes) (cursor : Nat) :
    r'.fill resolve format cursor = r.fill resolve format cursor := by
  simp only [fill, h.entries.size_eq, h.pieces_eq, h.pieceText_eq]

theorem valuesOf_eq {kind : CaptureKind} {index index' : Nat}
    (hrefers : Refers r.program r'.program kind index index') (pos cursor : Nat) :
    r'.valuesOf resolve kind index' pos cursor = r.valuesOf resolve kind index pos cursor := by
  cases hrefers with
  | argument => simp only [valuesOf, h.arguments]
  | constant hkind hconstant hzero =>
    cases kind with
    | argument => exact absurd rfl hkind
    | group => simp only [valuesOf, hzero, h.nestedOrText_eq, h.entries.after?_eq]
    | position | simple | table | subst | matchTime =>
      simp only [valuesOf, h.textAndNested_eq, h.collect_eq, h.substitute_eq, h.entries.after?_eq]
    | const | backref | function | query | template | fold =>
      simp only [valuesOf, hconstant, h.backref_eq, h.nestedOrText_eq, h.fill_eq, h.fold_eq]
      cases r.program.constant? index with
      | none => rfl
      | some constant => cases constant <;> rfl

theorem values_eq (depth : Nat) : r'.values depth = r.values depth := by
  induction depth with
  | zero => rfl
  | succ depth ih =>
    funext cursor
    have hi := h.entries.getElem? cursor
    rw [values, values, ih]
    generalize r.entries[cursor]? = found at hi
    generalize r'.entries[cursor]? = found' at hi
    cases hi with
    | none => rfl
    | some hi =>
      cases hi with
      | opened pos _ hrefers | full pos _ hrefers => exact h.valuesOf_eq hrefers pos cursor
      | closed | dynamic => rfl

theorem maxDepth_eq : r'.maxDepth = r.maxDepth := by
  rw [maxDepth, maxDepth, h.entries.size_eq]

theorem resolveFrom_eq (cursor : Nat) (done : Array Value) :
    r'.resolveFrom cursor done = r.resolveFrom cursor done := by
  induction hn : r.entries.size - cursor using Nat.strongRecOn generalizing cursor done with
  | ind n ih =>
    rw [resolveFrom.eq_def r', resolveFrom.eq_def r, h.entries.size_eq, h.maxDepth_eq, h.values_eq]
    split
    · next hlt =>
      split
      · rfl
      · split
        · next hnext => exact ih _ (by omega) _ _ rfl
        · rfl
    · rfl

/-- **The captures of a match have the same values.** -/
theorem resolve_eq : r'.resolve = r.resolve := by
  rw [resolve, resolve, h.resolveFrom_eq]

/-- **The captures nested in one have the same values.** -/
theorem nested_eq (cursor : Nat) : r'.nested cursor = r.nested cursor := by
  rw [nested, nested, h.maxDepth_eq, h.values_eq, h.nestedOrText_eq]

end Resolver.Alike

end PegMachine
