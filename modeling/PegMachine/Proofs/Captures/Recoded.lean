import PegMachine.Capture.Resolve

/-!
# Values of captures and the code of the program

What captures come to depends on the constants of the program, and not on its code.

* `Resolver.recoded`: the recorded captures of a program with other code.
* `Resolver.nested_recoded`, `Resolver.resolve_recoded`: **they have the same values.**
-/

namespace PegMachine

/-- The recorded captures, of a program with other code. -/
def Resolver.recoded (r : Resolver) (code : Array Instr) : Resolver :=
  { r with program := { r.program with code := code } }

section

variable (r : Resolver) (code : Array Instr)

theorem Entry.groupBelow_recoded (program : Program) (name : String) (entries : Array Entry)
    (depth limit : Nat) :
    groupBelow { program with code := code } name entries depth limit =
      groupBelow program name entries depth limit := by
  have hgroup : isGroup { program with code := code } name = isGroup program name := rfl
  fun_induction groupBelow program name entries depth limit <;> simp_all [groupBelow]

namespace Resolver

theorem backref_recoded (resolve : Nat → Except Fault Yield) :
    (r.recoded code).backref resolve = r.backref resolve := by
  funext name cursor
  rw [backref, backref]
  simp only [recoded, Entry.groupBelow_recoded]
  rfl

theorem pieces_recoded (depth : Nat) : (r.recoded code).pieces depth = r.pieces depth := by
  induction depth with
  | zero => rfl
  | succ depth ih =>
    funext taken cursor
    rw [pieces, pieces, ih]
    rfl

theorem fill_recoded (resolve : Nat → Except Fault Yield) :
    (r.recoded code).fill resolve = r.fill resolve := by
  funext format cursor
  rw [fill, fill, pieces_recoded]
  rfl

theorem valuesOf_recoded (resolve : Nat → Except Fault Yield) :
    (r.recoded code).valuesOf resolve = r.valuesOf resolve := by
  funext kind index pos cursor
  unfold valuesOf
  rw [backref_recoded, fill_recoded]
  rfl

theorem values_recoded (depth : Nat) : (r.recoded code).values depth = r.values depth := by
  induction depth with
  | zero => rfl
  | succ depth ih =>
    funext cursor
    rw [values, values, ih, valuesOf_recoded]
    rfl

theorem nested_recoded : (r.recoded code).nested = r.nested := by
  funext cursor
  rw [nested, nested, values_recoded]
  rfl

theorem resolveFrom_recoded (cursor : Nat) (done : Array Value) :
    (r.recoded code).resolveFrom cursor done = r.resolveFrom cursor done := by
  have hsize : (r.recoded code).entries.size = r.entries.size := rfl
  have hvalues : (r.recoded code).values (r.recoded code).maxDepth = r.values r.maxDepth :=
    values_recoded r code _
  fun_induction r.resolveFrom cursor done with
  | case1 cursor done h fault hfault => rw [resolveFrom, hsize, if_pos h, hvalues, hfault]
  | case2 cursor done h found hfound hlt ih =>
    rw [resolveFrom, hsize, if_pos h, hvalues, hfound]
    exact (if_pos hlt).trans ih
  | case3 cursor done h found hfound hge =>
    rw [resolveFrom, hsize, if_pos h, hvalues, hfound]
    exact if_neg hge
  | case4 cursor done h => rw [resolveFrom, hsize, if_neg h]

theorem resolve_recoded : (r.recoded code).resolve = r.resolve := by
  rw [resolve, resolve, resolveFrom_recoded]

end Resolver

end

end PegMachine
