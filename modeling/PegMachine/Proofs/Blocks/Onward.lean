import PegMachine.Proofs.Blocks.Captures
import PegMachine.Proofs.Blocks.Linking
import PegMachine.Proofs.Blocks.Repetitions
import PegMachine.Proofs.Passes.ThreadedJumps

/-!
# Chains of jumps that lead onward

Calls are linked one after another, and whether a call becomes a jump depends on where the chain of
jumps behind it leads in the code that has been linked so far.

* `Onward`: chains of jumps lead to no open call before them.
* `onward_append`, `onward_choice` and so on: **the code of a pattern is onward if that of its parts
  is.**
-/

namespace PegMachine

/-- Whether an instruction is an unconditional jump or an open call. -/
def Instr.isLink : Instr → Bool
  | .jump _ | .openCall _ => true
  | _ => false

theorem Instr.isLink_of_isCheck {instr : Instr} (h : instr.isCheck = true) :
    instr.isLink = false := by
  cases instr <;> first | rfl | cases h

theorem Instr.isLink_of_cannotFail {instr : Instr} (h : instr.cannotFail = true) :
    instr.isLink = false := by
  cases instr <;> first | rfl | cases h

theorem Instr.isLink_withTest (instr : Instr) (off : Int) :
    (instr.withTest off).isLink = instr.isLink := by
  cases instr <;> rfl

namespace Block

/-- The unconditional jumps of a block stay within it, and no chain of them leads to an open call
before its first jump. -/
structure Onward (code : Block) : Prop where
  stays : ∀ (k : Nat) (off : Int), code[k]? = some (.jump off) →
    0 ≤ (k : Int) + off ∧ (k : Int) + off ≤ code.length
  le_of_leads : ∀ (n stop rule : Nat), Leads code n stop → code[stop]? = some (.openCall rule) →
    n ≤ stop

variable {code code' a b body : Block} {instr : Instr} {n stop : Nat}

/-! ## Parts -/

theorem leads_append_right (hb : Onward b) (h : Leads (a ++ b) n stop) (hn : a.length ≤ n) :
    a.length ≤ stop ∧ Leads b (n - a.length) (stop - a.length) := by
  induction h with
  | refl => exact ⟨hn, .refl _⟩
  | @jump n mid stop off hjump hmid _ ih =>
    rw [List.getElem?_append_right hn] at hjump
    have hstays := hb.stays _ _ hjump
    obtain ⟨hstop, hrest⟩ := ih (by omega)
    exact ⟨hstop, .jump hjump (by omega) hrest⟩

/-- Chains from an address of the first block stay in it or go on in the second one. -/
theorem leads_append_left (ha : Onward a) (hb : Onward b) (h : Leads (a ++ b) n stop)
    (hn : n < a.length) : a.length ≤ stop ∨ Leads a n stop := by
  induction h with
  | refl => exact .inr (.refl _)
  | @jump n mid stop off hjump hmid hrest ih =>
    rw [List.getElem?_append_left hn] at hjump
    have hstays := ha.stays _ _ hjump
    rcases Nat.lt_or_ge mid a.length with hlt | hge
    · exact (ih hlt).imp_right (.jump hjump hmid)
    · exact .inl (leads_append_right hb hrest hge).1

theorem onward_append (ha : Onward a) (hb : Onward b) : Onward (a ++ b) where
  stays := fun k off hjump => by
    rw [List.length_append]
    rcases Nat.lt_or_ge k a.length with hlt | hge
    · rw [List.getElem?_append_left hlt] at hjump
      have := ha.stays k off hjump
      omega
    · rw [List.getElem?_append_right hge] at hjump
      have := hb.stays _ off hjump
      omega
  le_of_leads := fun n stop rule hleads hcall => by
    rcases Nat.lt_or_ge n a.length with hlt | hge
    · rcases leads_append_left ha hb hleads hlt with hstop | hleadsA
      · omega
      · by_cases hstop : stop < a.length
        · rw [List.getElem?_append_left hstop] at hcall
          exact ha.le_of_leads n stop rule hleadsA hcall
        · omega
    · obtain ⟨hstop, hleadsB⟩ := leads_append_right hb hleads hge
      rw [List.getElem?_append_right hstop] at hcall
      have := hb.le_of_leads _ _ rule hleadsB hcall
      omega

theorem onward_of_not_mem (hcont : Contained code) (hclosed : ∀ rule, .openCall rule ∉ code) :
    Onward code where
  stays := fun k off hjump => by simpa using hcont k _ off hjump rfl
  le_of_leads := fun _ _ rule _ hcall => absurd (List.mem_of_getElem? hcall) (hclosed rule)

theorem onward_of_isLink (h : ∀ instr ∈ code, instr.isLink = false) : Onward code where
  stays := fun _ _ hjump => by cases h _ (List.mem_of_getElem? hjump)
  le_of_leads := fun _ _ _ _ hcall => by cases h _ (List.mem_of_getElem? hcall)

theorem onward_nil : Onward [] := onward_of_isLink (by simp)

theorem onward_single (h : instr.isLink = false) : Onward [instr] :=
  onward_of_isLink (by simpa using h)

theorem onward_openCall (rule : Nat) : Onward [.openCall rule] where
  stays := fun k off hjump => by cases k <;> simp at hjump
  le_of_leads := fun n stop _ hleads hcall => by
    cases hleads with
    | refl => exact Nat.le_refl _
    | jump hjump => cases n <;> simp at hjump

theorem Onward.cons (hcode : Onward code) (h : instr.isLink = false) : Onward (instr :: code) :=
  onward_append (a := [instr]) (onward_single h) hcode

theorem Onward.jump_cons (hcode : Onward code) :
    Onward (.jump (code.length + 1 : Nat) :: code) where
  stays := fun k off hjump => by
    cases k with
    | zero =>
      cases hjump
      rw [List.length_cons]
      omega
    | succ k =>
      have := hcode.stays k off hjump
      rw [List.length_cons]
      omega
  le_of_leads := fun n stop rule hleads hcall => by
    cases n with
    | zero => exact Nat.zero_le _
    | succ n =>
      obtain ⟨hstop, hrest⟩ := leads_append_right (a := [.jump (code.length + 1 : Nat)]) hcode hleads
        (by simp)
      obtain ⟨stop, rfl⟩ := Nat.exists_eq_add_of_le' (show 1 ≤ stop from hstop)
      have := hcode.le_of_leads n stop rule hrest hcall
      omega

theorem onward_flatten {blocks : List Block} (h : ∀ block ∈ blocks, Onward block) :
    Onward blocks.flatten := by
  induction blocks with
  | nil => exact onward_nil
  | cons block rest ih =>
    rw [List.forall_mem_cons] at h
    exact onward_append h.1 (ih h.2)

theorem Onward.of_isLink (h : Onward code) (hlength : code'.length = code.length)
    (hsame : ∀ (k : Nat) (instr : Instr), code'[k]? = some instr → instr.isLink = true →
      code[k]? = some instr) : Onward code' where
  stays := fun k off hjump => hlength ▸ h.stays k off (hsame k _ hjump rfl)
  le_of_leads := fun n stop rule hleads hcall => h.le_of_leads n stop rule
    (hleads.mono fun k _ hjump => hsame k _ hjump rfl) (hsame stop _ hcall rfl)

/-! ## Tests -/

theorem Onward.withHeadTest (h : Onward code) (off : Int) : Onward (withHeadTest off code) := by
  cases code with
  | nil => exact h
  | cons head rest =>
    refine h.of_isLink rfl fun k instr hk hlink => ?_
    cases k with
    | zero =>
      cases hk
      rw [Instr.isLink_withTest] at hlink
      cases head <;> first | rfl | cases hlink
    | succ k => exact hk

theorem Onward.hoistCheck {off : Int} {back : Nat} (h : Onward code) :
    Onward (hoistCheck (.choice off back :: code)) := by
  rcases hoistCheck_cases off back code with hsame | ⟨check, rest, rfl, hcheck, -, -, hhoist⟩
  · rw [hsame]
    exact h.cons rfl
  · rw [hhoist]
    have hrest : Onward (.choice off back :: check :: rest) := h.cons rfl
    refine hrest.of_isLink rfl fun k instr hk hlink => ?_
    match k, hk with
    | 0, hk =>
      cases hk
      rw [Instr.isLink_withTest, Instr.isLink_of_isCheck hcheck] at hlink
      cases hlink
    | 1, hk =>
      cases hk
      cases hlink
    | _ + 2, hk => exact hk

/-- A block that can only fail at its head has neither jumps nor calls. -/
theorem isLink_of_failsAtHead (h : failsAtHead code = true) : ∀ instr ∈ code, instr.isLink = false := by
  obtain ⟨head, rest, rfl, hcheck, hrest, -⟩ := failsAtHead_iff.1 h
  exact List.forall_mem_cons.2 ⟨Instr.isLink_of_isCheck hcheck,
    fun instr hinstr => Instr.isLink_of_cannotFail (hrest instr hinstr)⟩

theorem isLink_withHeadTest (h : ∀ instr ∈ code, instr.isLink = false) (off : Int) :
    ∀ instr ∈ withHeadTest off code, instr.isLink = false := by
  cases code with
  | nil => exact h
  | cons head rest =>
    rw [List.forall_mem_cons] at h
    exact List.forall_mem_cons.2 ⟨(Instr.isLink_withTest head off).trans h.1, h.2⟩

theorem onward_of_checks (h : code.all Instr.isCheck = true) : Onward code :=
  onward_of_isLink fun instr hinstr => Instr.isLink_of_isCheck (List.all_eq_true.1 h instr hinstr)

theorem onward_ofSet (bytes : ByteSet) : Onward (ofSet bytes) := by
  rw [ofSet]
  split
  · exact onward_single rfl
  · split <;> exact onward_single rfl

/-! ## Patterns and their parts -/

theorem onward_choice (hcode : choice a b = .ok code) (ha : Onward a) (hb : Onward b) :
    Onward code := by
  cases choice_form hcode with
  | second => exact hb
  | first => exact ha
  | union => exact onward_ofSet _
  | tested => exact onward_append (ha.withHeadTest _) hb.jump_cons
  | chosen => exact (onward_append ha (hb.cons rfl)).hoistCheck

theorem onward_difference (hcode : difference a b = .ok code) (ha : Onward a) (hb : Onward b) :
    Onward code := by
  cases difference_form hcode with
  | first => exact ha
  | none => exact onward_single rfl
  | diff => exact onward_ofSet _
  | tested => exact onward_append (hb.withHeadTest _) (ha.cons rfl)
  | chosen => exact (onward_append hb (ha.cons rfl)).hoistCheck

theorem onward_lookahead (hcode : lookahead a = .ok code) (ha : Onward a) : Onward code := by
  rcases lookahead_cases hcode with ⟨-, rfl⟩ | rfl
  · exact ha
  · exact (onward_append ha ((onward_single rfl).cons rfl)).cons rfl

theorem onward_skip (count : Nat) : Onward (skip count) :=
  onward_of_checks (all_isCheck_of_isSkip (all_isSkip_skip count))

theorem onward_any {count : Int} (hcode : any count = .ok code) : Onward code := by
  rcases any_cases hcode with ⟨-, rfl⟩ | ⟨-, rfl | ⟨-, hdiff⟩⟩
  · exact onward_skip _
  · exact (onward_single rfl).cons rfl
  · exact onward_difference hdiff onward_nil (onward_skip _)

theorem onward_sequence (hcode : sequence a b = .ok code) (ha : Onward a) (hb : Onward b) :
    Onward code := by
  cases sequence_form hcode with
  | first => exact ha
  | second => exact hb
  | skips => exact onward_skip _
  | append => exact onward_append ha hb

theorem onward_loop (hbody : Onward body) (hcont : Contained body) : Onward (loop body) := by
  have hloop := contained_loop hcont
  generalize hcode : loop body = code at hloop
  cases loop_form hcode with
  | span => exact onward_single rfl
  | tested hhead =>
    -- The jump leads back, but there is no call that it could lead to.
    refine onward_of_not_mem hloop fun rule hmem => ?_
    rcases List.mem_append.1 hmem with hmem | hmem
    · cases isLink_withHeadTest (isLink_of_failsAtHead hhead) _ _ hmem
    · simp at hmem
  | chosen => exact (onward_append hbody (onward_single rfl)).cons rfl

theorem onward_behindCopy (count : Nat) (hbody : Onward body) :
    Onward (behindCopy body count) := by
  induction count with
  | zero => exact onward_single rfl
  | succ count ih => exact onward_append (hbody.cons rfl) ih

theorem onward_optional (count : Nat) (hbody : Onward body) : Onward (optional count body) := by
  generalize hcode : optional count body = code
  cases optional_form hcode with
  | tested hhead =>
    refine onward_of_isLink fun instr hinstr => ?_
    obtain ⟨later, -, hmem⟩ := List.mem_flatMap.1 hinstr
    exact isLink_withHeadTest (isLink_of_failsAtHead hhead) _ _ hmem
  | chosen => exact (onward_append hbody (onward_behindCopy _ hbody)).hoistCheck

theorem onward_repetition {count : Int} (hcode : repetition body count = .ok code)
    (hbody : Onward body) (hcont : Contained body) : Onward code := by
  rw [repetition_eq hcode]
  split
  · refine onward_append (onward_flatten fun block hblock => ?_) (onward_loop hbody hcont)
    rwa [List.eq_of_mem_replicate hblock]
  · exact onward_optional _ hbody

theorem onward_enclose (kind : CaptureKind) (index : Nat) (hbody : Onward body) :
    Onward (enclose kind index body) := by
  generalize hcode : enclose kind index body = code
  cases enclose_form hcode with
  | matchTime | opened => exact (onward_append hbody (onward_single rfl)).cons rfl
  | fixed => exact onward_append hbody (onward_single rfl)

end Block

end PegMachine
