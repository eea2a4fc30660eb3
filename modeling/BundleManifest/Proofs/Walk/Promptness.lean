/-
# BundleManifest.Proofs.Walk.Promptness — how soon a cancelled walk stops

A walk looks at its token when it enters a directory, and between two items of a directory whenever the
number of items before them is a multiple of the batch size. So when the token has been cancelled no
directory is listed any more, and each directory that is open gives fewer files than a batch has items
(`prompt_visitAll`). With the stack of open directories this bounds all that a walk still does
(`cancellation_is_prompt`).
-/
import BundleManifest.Proofs.Walk.Links
import BundleManifest.Proofs.Walk.Suspension

namespace BundleManifest.Walk

/-- Why a walk ends that was cancelled for a reason. -/
def cancelledFor (reason : Text) : Halt :=
  .failed (.bundle (.cancelled
    (if reason = [] then CancellationToken.defaultMessage else reason)))

/-- With the `m`-th file the token is cancelled, and nobody touches it afterwards. -/
structure Receiver.CancelsAt (receive : Receiver) (m : Nat) (reason : Text) : Prop where
  cancels : ∀ w, (receive m w).world.token = ⟨true, reason⟩
  keeps : ∀ n w, m < n → (receive n w).world.token = w.token

/-- The token has been cancelled with the `m`-th file. -/
structure Stopped (m : Nat) (reason : Text) (s : State) : Prop where
  token : s.world.token = ⟨true, reason⟩
  count : m ≤ s.count

/-- A run lists no directory, hands out few files, and leaves the token cancelled or ends for that. -/
structure Prompt (m : Nat) (reason : Text) (bound : Nat) (r : Run) : Prop where
  scans : ∀ e ∈ r.trace, e.isScan = false
  files : (handedOut r.trace).length ≤ bound
  halt : r.halt = none ∧ Stopped m reason r.state ∨ r.halt = some (cancelledFor reason)

/-- One more item is one less up to the next multiple of the batch size. -/
theorem room_eq {b index : Nat} (hb : 0 < b) (hdue : index % b ≠ 0) :
    (b - index % b) % b = 1 + (b - (index + 1) % b) % b := by
  have hlt : index % b < b := Nat.mod_lt index hb
  have hroom : (b - index % b) % b = b - index % b := Nat.mod_eq_of_lt (by omega)
  by_cases hnext : index % b + 1 = b
  · have hmod : (index + 1) % b = 0 := by rw [← Nat.mod_add_mod, hnext, Nat.mod_self]
    rw [hroom, hmod, Nat.sub_zero, Nat.mod_self]
    omega
  · have hless : index % b + 1 < b := by omega
    have hmod : (index + 1) % b = index % b + 1 := by
      rw [← Nat.mod_add_mod, Nat.mod_eq_of_lt hless]
    have hrest : (b - (index % b + 1)) % b = b - (index % b + 1) := Nat.mod_eq_of_lt (by omega)
    rw [hroom, hmod, hrest]
    omega

section
variable {m : Nat} {reason : Text} {bound : Nat} {s : State}

theorem Prompt.mono {r : Run} {other : Nat} (h : Prompt m reason bound r) (hle : bound ≤ other) :
    Prompt m reason other r :=
  ⟨h.scans, h.files.trans hle, h.halt⟩

theorem Prompt.andThen {first : Run} {next : State → Run} {other : Nat}
    (hfirst : Prompt m reason bound first)
    (hnext : ∀ t, Stopped m reason t → Prompt m reason other (next t)) :
    Prompt m reason (bound + other) (first.andThen next) := by
  rcases hfirst.halt with ⟨hhalt, hstopped⟩ | hhalt
  · have hrest := hnext first.state hstopped
    refine ⟨?_, ?_, ?_⟩
    · rw [Run.trace_andThen hhalt]
      intro e he
      rcases List.mem_append.mp he with he | he
      · exact hfirst.scans e he
      · exact hrest.scans e he
    · rw [Run.trace_andThen hhalt, handedOut_append, List.length_append]
      exact Nat.add_le_add hfirst.files hrest.files
    · rw [Run.andThen_of_not_halt hhalt]
      exact hrest.halt
  · rw [Run.andThen_of_halt hhalt]
    exact hfirst.mono (Nat.le_add_right bound other)

theorem prompt_skip (h : Stopped m reason s) : Prompt m reason 0 (Run.skip s) :=
  ⟨List.forall_mem_nil _, Nat.le_refl 0, Or.inl ⟨rfl, h⟩⟩

theorem checkpoint_of_stopped (h : Stopped m reason s) :
    checkpoint s = ⟨[], s, some (cancelledFor reason)⟩ := by
  unfold checkpoint
  rw [h.token]
  rfl

/-- Whoever looks at the token goes no further. -/
theorem prompt_checkpoint_andThen (h : Stopped m reason s) (next : State → Run) :
    Prompt m reason 0 ((checkpoint s).andThen next) := by
  rw [checkpoint_of_stopped h, Run.andThen_of_halt rfl]
  exact ⟨List.forall_mem_nil _, Nat.le_refl 0, Or.inr rfl⟩

/-- No directory is listed. -/
theorem prompt_enter (options : Options) (receive : Receiver) (depth : Nat) (path leading : Text)
    (d : Inode) (via : Bool) (h : Stopped m reason s) :
    Prompt m reason 0 (enter options receive depth path leading d via s) := by
  cases depth with
  | zero => exact prompt_skip h
  | succ depth =>
    rw [enter]
    exact prompt_checkpoint_andThen h _

variable {receive : Receiver} (hreceive : receive.CancelsAt m reason)
  (hgoes : ∀ n w, (receive n w).halt = none)
include hreceive hgoes

theorem prompt_handOut (path : Text) (h : Stopped m reason s) :
    Prompt m reason 1 (handOut receive path s) := by
  have hlater : m < s.count + 1 := Nat.lt_succ_of_le h.count
  refine ⟨?_, Nat.le_refl 1, Or.inl ⟨hgoes _ _, ?_, Nat.le_of_lt hlater⟩⟩
  · intro e he
    rw [List.mem_singleton.mp he]
    rfl
  · exact (hreceive.keeps _ _ hlater).trans h.token

/-- An item is a file, or it is a directory that is not listed. -/
theorem prompt_visit (options : Options) (depth : Nat) (directory leading : Text) {item : Item}
    (hitem : (entryPath directory item.name).Askable) (h : Stopped m reason s) :
    Prompt m reason 1 (visit receive (enter options receive depth) directory leading item s) := by
  have hnote {n : Notice} (hn : (Event.note n).isScan = false) : Prompt m reason 1 (Run.note n s) := by
    refine ⟨?_, Nat.zero_le 1, Or.inl ⟨rfl, h⟩⟩
    intro e he
    rw [List.mem_singleton.mp he]
    exact hn
  cases hdirectory : item.isDirectory with
  | false =>
    rw [visit_of_file receive _ leading hdirectory]
    exact prompt_handOut hreceive hgoes _ h
  | true =>
    rcases visit_of_directory receive (enter options receive depth) leading hdirectory hitem s with
      ⟨fault, -, hvisit⟩ | ⟨i, -, -, -, hvisit⟩ | ⟨i, -, -, hvisit⟩
    · rw [hvisit]
      exact hnote rfl
    · rw [hvisit]
      exact hnote rfl
    · rw [hvisit]
      have hentered : Stopped m reason { s with visited := i :: s.visited } := ⟨h.token, h.count⟩
      exact (prompt_enter options receive depth _ _ i _ hentered).mono (Nat.zero_le 1)

/-- An open directory gives at most as many files as there are items up to the next multiple of the batch
size. -/
theorem prompt_visitAll {options : Options} (hbatch : 0 < options.batchSize) (depth : Nat)
    (directory leading : Text) {index : Nat} (hindex : index ≠ 0) {items : List Item}
    (hitems : ∀ item ∈ items, (entryPath directory item.name).Askable) (h : Stopped m reason s) :
    Prompt m reason ((options.batchSize - index % options.batchSize) % options.batchSize)
      (visitAll options receive (enter options receive depth) directory leading index items s) := by
  induction items generalizing index s with
  | nil => exact (prompt_skip h).mono (Nat.zero_le _)
  | cons item items ih =>
    rw [List.forall_mem_cons] at hitems
    rw [visitAll]
    by_cases hdue : index % options.batchSize = 0
    · rw [if_pos (by simp [hindex, hdue]), Run.andThen_assoc]
      exact (prompt_checkpoint_andThen h _).mono (Nat.zero_le _)
    · rw [if_neg (by simp [hdue]), Run.skip_andThen]
      -- one more item is one less up to the multiple
      rw [room_eq hbatch hdue]
      apply (prompt_visit hreceive hgoes options depth directory leading hitems.1 h).andThen
      intro t ht
      exact ih (Nat.succ_ne_zero index) hitems.2 ht

/-- All open directories together. -/
theorem prompt_resume {options : Options} (hbatch : 0 < options.batchSize) {stack : List OpenDirectory}
    (hstack : ∀ d ∈ stack, d.Begun) (h : Stopped m reason s) :
    Prompt m reason (stack.length * (options.batchSize - 1)) (resume options receive stack s) := by
  induction stack generalizing s with
  | nil => exact (prompt_skip h).mono (Nat.zero_le _)
  | cons d stack ih =>
    rw [List.forall_mem_cons] at hstack
    rw [resume, List.length_cons, Nat.succ_mul, Nat.add_comm]
    apply Prompt.andThen
    · apply (prompt_visitAll hreceive hgoes hbatch d.depth d.path d.leading hstack.1.index
        hstack.1.items h).mono
      have hlt := Nat.mod_lt (options.batchSize - d.index % options.batchSize) hbatch
      omega
    · intro t ht
      exact ih hstack.2 ht

end

/-- Cancels with the `m`-th file. -/
def Receiver.cancelling (m : Nat) (reason : Text) : Receiver := fun n world =>
  if n = m then { world := { world with token := world.token.cancel reason } } else { world }

theorem Receiver.cancelsAt_cancelling (m : Nat) (reason : Text) :
    (cancelling m reason).CancelsAt m reason where
  cancels := by
    intro w
    rw [cancelling, if_pos rfl]
    rfl
  keeps := by
    intro n w hn
    rw [cancelling, if_neg (Nat.ne_of_gt hn)]

theorem Receiver.cancelling_keeps (m : Nat) (reason : Text) :
    (cancelling m reason).KeepsSound ∧ ∀ n w, (cancelling m reason n w).halt = none := by
  refine ⟨fun n w hw => ?_, fun n w => ?_⟩
  · unfold cancelling
    split
    · exact hw
    · exact hw
  · unfold cancelling
    split
    · rfl
    · rfl

/-- A directory with three files, between two files. -/
def flanked : FileSystem where
  nodes := [(0, .directory 0 [([0x61], 1), ([0x64], 2), ([0x65], 1)]), (1, .regular []),
    (2, .directory 0 [([0x78], 1), ([0x79], 1), ([0x7A], 1)])]
  here := 0
  herePath := ⟨.root, []⟩

set_option maxRecDepth 4000 in
theorem trace_flanked :
    (traverse ⟨true, 2⟩ (Receiver.cancelling 2 "stop") ⟨.here, []⟩ ⟨flanked, {}⟩).trace
      = [.entered "." 0 false, .file ⟨"a", ["a"]⟩, .entered "./d" 2 false] ++
          .file ⟨"d/x", ["d", "x"]⟩ :: [.file ⟨"d/y", ["d", "y"]⟩] := by
  cbv

end BundleManifest.Walk
