import Mathlib.Data.List.Forall2
import PegMachine.Proofs.Captures.Walks

/-!
# Templates

* `Resolver.PieceOf`, `Resolver.PiecesOf`: the parts that the pieces of a template stand for.
* `Resolver.findsPieces`: the pieces that are found in a capture.
* `Resolver.fill_eq`: **a template is written out with the parts of its capture.**
-/

namespace PegMachine

namespace Resolver

variable {r : Resolver} {resolve : Nat → Except Fault Yield} {lo hi cursor next start stop : Nat}
  {first limit : Nat} {bindings : Bindings} {captures nested : List Capture} {capture : Capture}
  {content : Content}

/-! ## Pieces -/

/-- What a piece of a template stands for. -/
inductive PieceOf (r : Resolver) (resolve : Nat → Except Fault Yield) : Piece → Values → Prop where
  | text {start stop : Nat} (hle : start ≤ stop) (hstop : stop ≤ r.subject.size) :
      PieceOf r resolve (.text start stop) (.ok [.str (r.subject.extract start stop)])
  | capture {cursor next : Nat} {values : Values}
      (h : resolve cursor = values.map (⟨·, next⟩)) : PieceOf r resolve (.capture cursor) values

/-- The pieces stand for the first of the parts, as many as there is room for. -/
def PiecesOf (r : Resolver) (resolve : Nat → Except Fault Yield) (room : Nat) (found : Array Piece)
    (parts : List Values) : Prop :=
  List.Forall₂ (PieceOf r resolve) found.toList (parts.take room)

theorem PiecesOf.size_eq {room : Nat} {found : Array Piece} {parts : List Values}
    (h : PiecesOf r resolve room found parts) : found.size = min room parts.length := by
  rw [← Array.length_toList, h.length_eq, List.length_take]

theorem PiecesOf.append {room : Nat} {found more : Array Piece} {parts others : List Values}
    (h : PiecesOf r resolve room found parts) (hsize : found.size = parts.length)
    (hmore : PiecesOf r resolve (room - found.size) more others) :
    PiecesOf r resolve room (found ++ more) (parts ++ others) := by
  have := h.size_eq
  rw [PiecesOf, List.take_of_length_le (by omega)] at h
  rw [PiecesOf, List.take_append, List.take_of_length_le (by omega), ← hsize, Array.toList_append]
  exact List.rel_append h hmore

/-- Where there is no room left, further parts do not matter. -/
theorem PiecesOf.append_right {room : Nat} {found : Array Piece} {parts : List Values}
    (h : PiecesOf r resolve room found parts) (hroom : room ≤ found.size) (others : List Values) :
    PiecesOf r resolve room found (parts ++ others) := by
  have := h.size_eq
  rw [PiecesOf, List.take_append_of_le_length (by omega)]
  exact h

theorem kind?_eq_simple
    (h : r.Holds lo cursor [.node content start stop nested] hi next) :
    r.entries[cursor]?.bind Entry.kind? = some .simple ↔ content = .simple := by
  cases h.1 with
  | full hat _ hname | nest hat _ hname =>
    rw [hat]
    cases hname <;> simp [Entry.kind?]
  | dynamic hat =>
    rw [hat]
    simp [Entry.kind?]

theorem parts_of_ne_simple (h : content ≠ .simple) :
    (r.reading bindings (.node content start stop nested)).parts =
      [(r.reading bindings (.node content start stop nested)).values] := by
  cases content with
  | simple => exact absurd rfl h
  | _ => rfl

/-- The function finds the pieces of each capture that is entered `depth` levels deep at most. -/
def FindsPieces (r : Resolver) (resolve : Nat → Except Fault Yield)
    (inner : Nat → Nat → Except Fault (Array Piece × Nat)) (depth first limit : Nat) : Prop :=
  ∀ {cursor next start stop taken bindings nested}, taken < maxPieces →
    r.entries.size < cursor + depth → first ≤ cursor + 1 → next ≤ limit →
    r.Encloses cursor start stop nested next → Visible r cursor bindings →
    ∃ found, inner taken cursor = .ok (found, next) ∧
      PiecesOf r resolve (maxPieces - taken) found
        (partsWithin r.subject start stop (r.readings bindings nested))

theorem addPieces_eq {inner : Nat → Nat → Except Fault (Array Piece × Nat)} {depth taken : Nat}
    (hf : r.Finds resolve first limit) (hinner : r.FindsPieces resolve inner depth first limit)
    (hdepth : r.entries.size < cursor + depth) (hfirst : first ≤ cursor) (hlimit : next ≤ limit)
    (hv : Visible r cursor bindings) (h : r.Holds lo cursor [capture] hi next)
    {found : Array Piece} {parts : List Values}
    (hfound : PiecesOf r resolve (maxPieces - taken) found parts) :
    ∃ found', r.addPieces inner taken found cursor = .ok (found', next) ∧
      PiecesOf r resolve (maxPieces - taken) found'
        (parts ++ (r.reading bindings capture).parts) := by
  obtain ⟨content, start, stop, nested⟩ := capture
  have hafter := h.1.after?_eq
  rw [addPieces, hafter]
  by_cases hfull : maxPieces ≤ taken + found.size
  · rw [if_pos hfull]
    exact ⟨found, rfl, hfound.append_right (by omega) _⟩
  · have hsize : found.size = parts.length := by
      have := hfound.size_eq
      omega
    rw [if_neg hfull]
    by_cases hsimple : content = .simple
    · subst hsimple
      rw [if_pos ((kind?_eq_simple h).2 rfl)]
      obtain ⟨more, hmore, hpieces⟩ := hinner (by omega : taken + found.size < maxPieces) hdepth
        (Nat.le_succ_of_le hfirst) hlimit (h.encloses nofun) hv
      refine ⟨found ++ more, by rw [hmore]; rfl, hfound.append hsize ?_⟩
      rw [Nat.sub_sub]
      exact hpieces
    · rw [if_neg (mt (kind?_eq_simple h).1 hsimple), parts_of_ne_simple hsimple]
      refine ⟨found.push (.capture cursor), rfl, ?_⟩
      rw [← Array.append_singleton]
      refine hfound.append hsize ?_
      rw [PiecesOf, List.take_of_length_le (by simp; omega)]
      exact .cons (.capture (hf hfirst hlimit hv h)) .nil

theorem piecesOf_within {taken : Nat} (htaken : taken < maxPieces) (hle : start ≤ stop)
    (hstop : stop ≤ r.subject.size) {found : Array Piece} {readings : List Reading}
    (h : PiecesOf r resolve (maxPieces - (taken + 1)) found (readings.flatMap Reading.parts)) :
    PiecesOf r resolve (maxPieces - taken) (#[.text start stop] ++ found)
      (partsWithin r.subject start stop readings) := by
  have hfirst : PiecesOf r resolve (maxPieces - taken) #[.text start stop]
      [.ok [.str (r.subject.extract start stop)]] := by
    rw [PiecesOf, List.take_of_length_le (by simp; omega)]
    exact .cons (.text hle hstop) .nil
  refine hfirst.append rfl ?_
  rwa [show (#[Piece.text start stop]).size = 1 from rfl, Nat.sub_sub]

theorem findsPieces (hf : r.Finds resolve first limit) (depth : Nat) :
    r.FindsPieces resolve (r.pieces depth) depth first limit := by
  induction depth with
  | zero =>
    intro cursor next start stop taken bindings nested _ hdepth _ _ h
    cases h with
    | full hat | nest hat =>
      have := (Array.getElem?_eq_some_iff.1 hat).1
      omega
  | succ depth ih =>
    intro cursor next start stop taken bindings nested htaken hdepth hfirst hlimit h hv
    obtain ⟨found, hinside, hfound⟩ := inside_ok
      (r.addPieces (r.pieces depth) (taken + 1)) (fun _ => #[])
      (fun found done => PiecesOf r resolve (maxPieces - (taken + 1)) found
        (done.flatMap Reading.parts))
      (fun hcursor hnext hv hcapture hfound => by
        rw [List.flatMap_append, List.flatMap_singleton]
        exact addPieces_eq hf ih (by omega) (by omega) (by omega) hv hcapture hfound)
      h hv (by simp [PiecesOf])
    refine ⟨#[.text start stop] ++ found, ?_, piecesOf_within htaken h.le.1 h.le.2 hfound⟩
    rw [pieces, hinside]
    rfl

theorem pieceText_eq {found : Array Piece} {parts : List Values} {n : Nat}
    (h : PiecesOf r resolve maxPieces found parts) (hn : n < maxPieces) :
    r.pieceText resolve found n = partText parts n := by
  rw [pieceText, partText, ← Array.getElem?_toList]
  have hparts : parts[n]? = (parts.take maxPieces)[n]? := by
    rw [List.getElem?_take_of_lt hn]
  rw [hparts]
  rcases List.forall₂_iff_get.1 h with ⟨hlength, hget⟩
  by_cases hlt : n < found.toList.length
  · have hlt' : n < (parts.take maxPieces).length := hlength ▸ hlt
    have hpiece := hget n hlt hlt'
    rw [List.getElem?_eq_getElem hlt, List.getElem?_eq_getElem hlt']
    simp only [List.get_eq_getElem] at hpiece
    generalize found.toList[n] = piece at hpiece
    generalize (parts.take maxPieces)[n] = values at hpiece
    cases hpiece with
    | text hle hstop => exact text_eq hle hstop
    | capture hresolve =>
      simp only
      rw [replacement_eq hresolve]
      cases values with
      | error fault => rfl
      | ok values =>
        simp only [bind, Except.bind]
        cases firstText values with
        | error fault => rfl
        | ok text => cases text <;> rfl
  · rw [List.getElem?_eq_none (by omega), List.getElem?_eq_none (by omega)]

theorem digit_lt {c : UInt8} (h : 48 ≤ c ∧ c ≤ 57) : c.toNat - 48 < maxPieces := by
  have hle := UInt8.le_iff_toNat_le.1 h.2
  rw [maxPieces]
  change c.toNat ≤ 57 at hle
  omega

/-- A template refers to no more than ten pieces. -/
theorem expand_congr {piece piece' : Nat → Except Fault Bytes}
    (h : ∀ n, n < maxPieces → piece n = piece' n) (done : Bytes) (format : List UInt8) :
    expand piece done format = expand piece' done format := by
  fun_induction expand piece done format with
  | case1 | case2 => rw [expand]
  | case3 done c rest hdigit text htext ih =>
    rw [h _ (digit_lt hdigit)] at htext
    rw [ih, expand, if_pos rfl, if_pos hdigit, htext]
  | case4 done c rest hdigit fault hfault =>
    rw [h _ (digit_lt hdigit)] at hfault
    rw [expand, if_pos rfl, if_pos hdigit, hfault]
  | case5 done c rest hdigit ih => rw [ih, expand, if_pos rfl, if_neg hdigit]
  | case6 done b c rest hpercent ih => rw [ih, expand, if_neg hpercent]

theorem fill_eq (hf : r.Finds resolve (cursor + 1) next) (format : Bytes)
    (h : r.Encloses cursor start stop nested next) (hv : Visible r cursor bindings) :
    r.fill resolve format cursor =
      (expand (partText (partsWithin r.subject start stop (r.readings bindings nested))) #[]
        format.toList).map (·, next) := by
  obtain ⟨found, hfound, hpieces⟩ := findsPieces hf (r.entries.size + 1)
    (by decide : 0 < maxPieces) (by omega) (Nat.le_refl _) (Nat.le_refl _) h hv
  rw [fill, hfound]
  simp only [bind, Except.bind]
  rw [expand_congr fun n hn => pieceText_eq hpieces hn]
  cases expand (partText (partsWithin r.subject start stop (r.readings bindings nested))) #[]
    format.toList <;> rfl

end Resolver

end PegMachine
