/-!
# The stack of the matching machine

* `Frame`: a pending call or a pending choice.
* `Stack`: the pending frames, and how many they are.
* `Stack.unwind?`: the latest choice, and the stack below it.
-/

namespace PegMachine

/-- Where to go on when a choice is taken: the instruction, the position in the subject, and the
number of captures recorded by then. -/
structure ChoicePoint where
  address : Nat
  pos : Nat
  captures : Nat
deriving DecidableEq

/-- A pending call or choice. -/
inductive Frame where
  | ret (address : Nat)
  | choice (point : ChoicePoint)
deriving DecidableEq

/-- The pending frames, the latest one first. -/
structure Stack where
  frames : List Frame
  size : Nat
  size_eq : size = frames.length := by simp

namespace Stack

/-- The stack without frames. -/
def empty : Stack := { frames := [], size := 0 }

instance : Inhabited Stack := ⟨empty⟩

/-- The stack with one more frame. -/
def push (frame : Frame) (stack : Stack) : Stack where
  frames := frame :: stack.frames
  size := stack.size + 1
  size_eq := by simp [stack.size_eq]

/-- The latest frame, and the stack below it. -/
def pop? : Stack → Option (Frame × Stack)
  | ⟨[], _, _⟩ => none
  | ⟨frame :: frames, size, h⟩ => some (frame, ⟨frames, size - 1, by simp [h]⟩)

/-- The stack without its latest frame. -/
def drop : Stack → Stack
  | ⟨[], size, h⟩ => ⟨[], size, h⟩
  | ⟨_ :: frames, size, h⟩ => ⟨frames, size - 1, by simp [h]⟩

/-- The latest choice among `size` frames, and the frames below it. -/
def unwindFrames? : (frames : List Frame) → (size : Nat) → size = frames.length →
    Option (ChoicePoint × Stack)
  | [], _, _ => none
  | .choice point :: frames, size, h => some (point, ⟨frames, size - 1, by simp [h]⟩)
  | .ret _ :: frames, size, h => unwindFrames? frames (size - 1) (by simp [h])

/-- The latest choice and the stack below it. The calls above it are given up. -/
def unwind? (stack : Stack) : Option (ChoicePoint × Stack) :=
  unwindFrames? stack.frames stack.size stack.size_eq

@[ext]
theorem ext {s t : Stack} (h : s.frames = t.frames) : s = t := by
  cases s with | mk _ _ hs => cases t with | mk _ _ ht => subst hs ht; cases h; rfl

/-! ## Frames after each operation -/

@[simp]
theorem frames_empty : empty.frames = [] := rfl

@[simp]
theorem frames_push (frame : Frame) (stack : Stack) :
    (stack.push frame).frames = frame :: stack.frames := rfl

@[simp]
theorem frames_drop (stack : Stack) : stack.drop.frames = stack.frames.tail := by
  obtain ⟨_ | _, _, _⟩ := stack <;> rfl

@[simp]
theorem pop?_push (frame : Frame) (stack : Stack) :
    (stack.push frame).pop? = some (frame, stack) := rfl

theorem pop?_eq_some_iff {stack below : Stack} {frame : Frame} :
    stack.pop? = some (frame, below) ↔ stack = below.push frame := by
  constructor
  · intro h
    obtain ⟨_ | ⟨f, fs⟩, size, hs⟩ := stack
    · simp [pop?] at h
    · simp only [pop?, Option.some.injEq, Prod.mk.injEq] at h
      obtain ⟨rfl, rfl⟩ := h
      exact ext rfl
  · rintro rfl
    exact pop?_push frame below

@[simp]
theorem unwind?_empty : empty.unwind? = none := rfl

@[simp]
theorem unwind?_push_choice (point : ChoicePoint) (stack : Stack) :
    (stack.push (.choice point)).unwind? = some (point, stack) := rfl

@[simp]
theorem unwind?_push_ret (address : Nat) (stack : Stack) :
    (stack.push (.ret address)).unwind? = stack.unwind? := rfl

end Stack

end PegMachine
