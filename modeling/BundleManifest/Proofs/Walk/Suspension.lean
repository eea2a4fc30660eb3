/-
# BundleManifest.Proofs.Walk.Suspension — where a walk stands between two files

When a walk has handed out a file it is in the middle of a directory, which it has entered from the middle
of another one, and so on up to the root. An `OpenDirectory` is what it remembers of one of them, and
`resume` goes on with a stack of them, the innermost first. Whatever a walk does behind a file is what
`resume` does with the stack of that moment, and there are as many directories on it as the path of the file
has segments (`pauses_traverse`).
-/
import BundleManifest.Proofs.Walk.NormalForm

namespace BundleManifest

theorem length_cut {α : Type} [DecidableEq α] (sep : α) (t : List α) :
    (cut sep t).length = t.count sep + 1 := by
  induction t with
  | nil => rfl
  | cons c t ih =>
    rw [cut]
    by_cases hc : c = sep
    · rw [if_pos hc, hc, List.count_cons_self, List.length_cons, ih]
    · rw [if_neg hc, List.count_cons_of_ne hc, ← ih]
      obtain ⟨piece, pieces, hcut⟩ := List.exists_cons_of_ne_nil (cut_ne_nil sep t)
      rw [hcut]
      rfl

namespace Walk

/-! ## Events before a run -/

/-- The candidates that are handed out in the course of some events. -/
def handedOut (events : List Event) : List Candidate :=
  events.filterMap fun
    | .file c => some c
    | _ => none

theorem handedOut_append (events more : List Event) :
    handedOut (events ++ more) = handedOut events ++ handedOut more :=
  List.filterMap_append

theorem mem_handedOut {events : List Event} {c : Candidate} (h : .file c ∈ events) :
    c ∈ handedOut events :=
  List.mem_filterMap.mpr ⟨.file c, h, rfl⟩

namespace Run

/-- A run, seen behind some events. -/
def after (events : List Event) (r : Run) : Run := { r with trace := events ++ r.trace }

theorem after_andThen (events : List Event) (r : Run) (next : State → Run) :
    (r.after events).andThen next = (r.andThen next).after events := by
  cases hhalt : r.halt with
  | some halt =>
    have hafter : (r.after events).halt = some halt := hhalt
    rw [andThen_of_halt hafter, andThen_of_halt hhalt]
  | none =>
    have hafter : (r.after events).halt = none := hhalt
    rw [andThen_of_not_halt hafter, andThen_of_not_halt hhalt]
    simp [after]

theorem after_append (events more : List Event) (r : Run) :
    r.after (events ++ more) = (r.after more).after events := by
  simp [after]

theorem andThen_skip (r : Run) : r.andThen skip = r := by
  cases hhalt : r.halt with
  | some halt => rw [andThen_of_halt hhalt]
  | none =>
    rw [andThen_of_not_halt hhalt]
    simp [skip, ← hhalt]

/-- An event of two runs one after the other is one of the first, or one of the second. -/
theorem trace_andThen_eq_append_cons {first : Run} {next : State → Run} {before after : List Event}
    {e : Event} (h : (first.andThen next).trace = before ++ e :: after) :
    (∃ mid, first.trace = before ++ e :: mid) ∨
      first.halt = none ∧ ∃ mid, before = first.trace ++ mid ∧
        (next first.state).trace = mid ++ e :: after := by
  cases hhalt : first.halt with
  | some halt =>
    rw [andThen_of_halt hhalt] at h
    exact Or.inl ⟨after, h⟩
  | none =>
    rw [trace_andThen hhalt] at h
    rcases List.append_eq_append_iff.mp h with ⟨mid, hbefore, hlater⟩ | ⟨mid, hfirst, hlater⟩
    · exact Or.inr ⟨rfl, mid, hbefore, hlater⟩
    · cases mid with
      | nil =>
        rw [List.append_nil] at hfirst
        exact Or.inr ⟨rfl, [], by rw [hfirst, List.append_nil], hlater.symm⟩
      | cons e' mid =>
        obtain ⟨rfl, -⟩ := List.cons.inj hlater
        exact Or.inl ⟨mid, hfirst⟩

end Run

/-! ## Open directories -/

/-- A directory that a walk is in the middle of. -/
structure OpenDirectory where
  path : Text
  /-- What the paths of its files below the root of the walk start with. -/
  leading : Text
  /-- The number of levels that may be entered below. -/
  depth : Nat
  /-- The number of items that have been visited. -/
  index : Nat
  /-- The items that are left. -/
  items : List Item

/-- Goes on with open directories, the innermost first. -/
def resume (options : Options) (receive : Receiver) : List OpenDirectory → State → Run
  | [], s => Run.skip s
  | d :: outer, s =>
    (visitAll options receive (enter options receive d.depth) d.path d.leading d.index d.items
      s).andThen (resume options receive outer)

/-- Something has been visited in an open directory, and its other items can be asked for. -/
structure OpenDirectory.Begun (d : OpenDirectory) : Prop where
  index : d.index ≠ 0
  items : ∀ item ∈ d.items, (entryPath d.path item.name).Askable

section
variable (options : Options) (receive : Receiver)

theorem resume_singleton (d : OpenDirectory) :
    resume options receive [d]
      = visitAll options receive (enter options receive d.depth) d.path d.leading d.index d.items := by
  funext s
  exact Run.andThen_skip _

theorem resume_append (stack outer : List OpenDirectory) (s : State) :
    resume options receive (stack ++ outer) s
      = (resume options receive stack s).andThen (resume options receive outer) := by
  induction stack generalizing s with
  | nil => exact (Run.skip_andThen s _).symm
  | cons d stack ih =>
    rw [List.cons_append, resume, resume, Run.andThen_assoc]
    congr 1
    funext t
    exact ih t

end

/-! ## Pauses -/

/-- A run that was begun in the state `s` pauses behind a file: what it still has to do is what `resume`
does with some open directories in the state `t`, to which the file has led. There are as many of them as
the path of the file has segments, not counting the `level` directories around the run. -/
structure Pause (options : Options) (receive : Receiver) (level : Nat) (s : State) (r : Run)
    (before : List Event) (c : Candidate) (stack : List OpenDirectory) (t : State) : Prop where
  rest : r = (resume options receive stack t).after (before ++ [.file c])
  length : stack.length + level = c.segments.length
  begun : ∀ d ∈ stack, d.Begun
  count : t.count = s.count + (handedOut before).length + 1
  world : ∃ w, t.world = (receive t.count w).world

/-- A run pauses behind every file, and leaves sound files. -/
structure Pauses (options : Options) (receive : Receiver) (level : Nat) (s : State) (r : Run) :
    Prop where
  sound : r.state.world.files.Sound
  count : r.state.count = s.count + (handedOut r.trace).length
  pause : ∀ before c after, r.trace = before ++ .file c :: after →
    ∃ stack t, Pause options receive level s r before c stack t

section
variable {options : Options} {receive : Receiver} {level : Nat} {s : State} {first r : Run}
  {next : State → Run}

theorem pauses_of_handedOut_eq_nil (hnone : handedOut r.trace = []) (hcount : r.state.count = s.count)
    (hsound : r.state.world.files.Sound) : Pauses options receive level s r where
  sound := hsound
  count := by rw [hnone, hcount, List.length_nil, Nat.add_zero]
  pause := by
    intro before c after htrace
    have hc : c ∈ handedOut r.trace := mem_handedOut (by simp [htrace])
    rw [hnone] at hc
    cases hc

/-- Nothing but the number of files that have been handed out matters at the beginning. -/
theorem Pauses.of_count {t : State} (h : Pauses options receive level t r) (hcount : t.count = s.count) :
    Pauses options receive level s r where
  sound := h.sound
  count := hcount ▸ h.count
  pause := by
    intro before c after htrace
    obtain ⟨stack, u, hpause⟩ := h.pause before c after htrace
    exact ⟨stack, u, hpause.rest, hpause.length, hpause.begun, hcount ▸ hpause.count, hpause.world⟩

/-- A pause of the second of two runs is one of both. -/
theorem Pause.behind {before : List Event} {c : Candidate} {stack : List OpenDirectory} {t : State}
    (hhalt : first.halt = none) (hcount : first.state.count = s.count + (handedOut first.trace).length)
    (h : Pause options receive level first.state (next first.state) before c stack t) :
    Pause options receive level s (first.andThen next) (first.trace ++ before) c stack t where
  rest := by
    have hboth : first.andThen next = (next first.state).after first.trace :=
      Run.andThen_of_not_halt hhalt next
    rw [hboth, List.append_assoc, Run.after_append, ← h.rest]
  length := h.length
  begun := h.begun
  count := by
    rw [h.count, hcount, handedOut_append, List.length_append, Nat.add_assoc s.count]
  world := h.world

/-- A pause of the first one is one of both, if the second goes on with open directories. -/
theorem Pause.andThen {before : List Event} {c : Candidate} {stack outer : List OpenDirectory}
    {t : State} (h : Pause options receive (level + outer.length) s first before c stack t)
    (houter : ∀ d ∈ outer, d.Begun) :
    Pause options receive level s (first.andThen (resume options receive outer)) before c
      (stack ++ outer) t where
  rest := by
    rw [resume_append, ← Run.after_andThen, ← h.rest]
  length := by
    have hlength := h.length
    rw [List.length_append]
    omega
  begun := by
    intro d hd
    rcases List.mem_append.mp hd with hd | hd
    · exact h.begun d hd
    · exact houter d hd
  count := h.count
  world := h.world

/-- Two runs pause where the second does, if the pauses of the first are pauses of both. -/
theorem pauses_andThen (hsound : first.state.world.files.Sound)
    (hcount : first.state.count = s.count + (handedOut first.trace).length)
    (hpause : ∀ before c mid, first.trace = before ++ .file c :: mid →
      ∃ stack t, Pause options receive level s (first.andThen next) before c stack t)
    (hnext : ∀ t, t.world.files.Sound → Pauses options receive level t (next t)) :
    Pauses options receive level s (first.andThen next) where
  sound := by
    cases hhalt : first.halt with
    | some halt =>
      rw [Run.andThen_of_halt hhalt]
      exact hsound
    | none =>
      rw [Run.state_andThen hhalt]
      exact (hnext first.state hsound).sound
  count := by
    cases hhalt : first.halt with
    | some halt =>
      rw [Run.andThen_of_halt hhalt]
      exact hcount
    | none =>
      rw [Run.state_andThen hhalt, Run.trace_andThen hhalt, (hnext first.state hsound).count, hcount,
        handedOut_append, List.length_append, Nat.add_assoc]
  pause := by
    intro before c after htrace
    rcases Run.trace_andThen_eq_append_cons htrace with ⟨mid, hfirst⟩ | ⟨hhalt, mid, rfl, hsecond⟩
    · exact hpause before c mid hfirst
    · obtain ⟨stack, t, h⟩ := (hnext first.state hsound).pause mid c after hsecond
      exact ⟨stack, t, h.behind hhalt hcount⟩

theorem Pauses.andThen {outer : List OpenDirectory}
    (hfirst : Pauses options receive (level + outer.length) s first)
    (houter : ∀ d ∈ outer, d.Begun)
    (hnext : ∀ t, t.world.files.Sound →
      Pauses options receive level t (resume options receive outer t)) :
    Pauses options receive level s (first.andThen (resume options receive outer)) := by
  apply pauses_andThen hfirst.sound hfirst.count ?_ hnext
  intro before c mid htrace
  obtain ⟨stack, t, h⟩ := hfirst.pause before c mid htrace
  exact ⟨stack ++ outer, t, h.andThen houter⟩

/-- A run that hands out nothing does not matter. -/
theorem pauses_andThen_of_handedOut_eq_nil (hnone : handedOut first.trace = [])
    (hcount : first.state.count = s.count) (hsound : first.state.world.files.Sound)
    (hnext : ∀ t, t.world.files.Sound → Pauses options receive level t (next t)) :
    Pauses options receive level s (first.andThen next) := by
  have hfirst : Pauses options receive level s first :=
    pauses_of_handedOut_eq_nil hnone hcount hsound
  apply pauses_andThen hsound hfirst.count ?_ hnext
  intro before c mid htrace
  have hc : c ∈ handedOut first.trace := mem_handedOut (by simp [htrace])
  rw [hnone] at hc
  cases hc

end

/-! ## The pauses of a walk -/

section
variable (options : Options) {receive : Receiver} (hreceive : receive.KeepsSound)

theorem pauses_checkpoint_andThen {level : Nat} {s : State} {next : State → Run}
    (hs : s.world.files.Sound)
    (hnext : ∀ t, t.world.files.Sound → Pauses options receive level t (next t)) :
    Pauses options receive level s ((checkpoint s).andThen next) := by
  unfold checkpoint
  split
  · exact pauses_andThen_of_handedOut_eq_nil rfl rfl hs hnext
  · exact pauses_andThen_of_handedOut_eq_nil rfl rfl hs hnext

variable (hgoes : ∀ n w, (receive n w).halt = none)
include hreceive hgoes

theorem pauses_handOut (path : Text) {s : State} (hs : s.world.files.Sound) :
    Pauses options receive (path.count (CodePoint.ofChar '/') + 1) s (handOut receive path s) where
  sound := hreceive _ _ hs
  count := rfl
  pause := by
    intro before c after htrace
    obtain ⟨rfl, hc, rfl⟩ : before = [] ∧ c = ⟨path, Text.split '/' path⟩ ∧ after = [] := by
      have hlength := congrArg List.length htrace
      rw [List.length_append, List.length_cons] at hlength
      obtain rfl : before = [] := List.length_eq_zero_iff.mp (by simp [handOut] at hlength; omega)
      obtain ⟨hc, hafter⟩ := List.cons.inj htrace
      exact ⟨rfl, (Event.file.inj hc).symm, hafter.symm⟩
    subst hc
    refine ⟨[], (handOut receive path s).state, ?_, ?_, List.forall_mem_nil _, rfl, s.world, rfl⟩
    · unfold handOut
      simp only [hgoes]
      rfl
    · rw [List.length_nil, Nat.zero_add]
      exact (length_cut _ path).symm

theorem pauses_visit {enter : Text → Text → Inode → Bool → State → Run}
    (henter : ∀ path leading i via s, s.world.files.Sound →
      Pauses options receive (leading.count (CodePoint.ofChar '/')) s (enter path leading i via s))
    (directory leading : Text) {item : Item} (hname : CodePoint.ofChar '/' ∉ item.name) {s : State}
    (hs : s.world.files.Sound) :
    Pauses options receive (leading.count (CodePoint.ofChar '/') + 1) s
      (visit receive enter directory leading item s) := by
  have hlevel : (leading ++ item.name).count (CodePoint.ofChar '/')
      = leading.count (CodePoint.ofChar '/') := by
    rw [List.count_append, List.count_eq_zero.mpr hname, Nat.add_zero]
  unfold visit
  extract_lets below path
  split
  · rw [← hlevel]
    exact pauses_handOut options hreceive hgoes below hs
  split
  · exact pauses_of_handedOut_eq_nil rfl rfl hs
  · exact pauses_of_handedOut_eq_nil rfl rfl hs
  · split
    · exact pauses_of_handedOut_eq_nil rfl rfl hs
    · next i _ _ =>
      have hbelow : (below ++ "/").count (CodePoint.ofChar '/')
          = leading.count (CodePoint.ofChar '/') + 1 := by
        rw [List.count_append, hlevel]
        rfl
      rw [← hbelow]
      exact (henter path (below ++ "/") i item.isLink { s with visited := i :: s.visited } hs).of_count rfl

theorem pauses_visitAll {depth : Nat}
    (henter : ∀ path leading i via s, s.world.files.Sound →
      Pauses options receive (leading.count (CodePoint.ofChar '/')) s
        (enter options receive depth path leading i via s))
    (directory leading : Text) (index : Nat) {items : List Item}
    (hitems : ∀ item ∈ items, (entryPath directory item.name).Askable ∧
      CodePoint.ofChar '/' ∉ item.name) {s : State} (hs : s.world.files.Sound) :
    Pauses options receive (leading.count (CodePoint.ofChar '/')) s
      (visitAll options receive (enter options receive depth) directory leading index items s) := by
  induction items generalizing index s with
  | nil => exact pauses_of_handedOut_eq_nil rfl rfl hs
  | cons item items ih =>
    rw [List.forall_mem_cons] at hitems
    have hvisit (t : State) (ht : t.world.files.Sound) :=
      pauses_visit options hreceive hgoes henter directory leading hitems.1.2 ht
    rw [visitAll]
    -- while an item is visited, the directory stays open behind it
    have houter := resume_singleton options receive
      ⟨directory, leading, depth, index + 1, items⟩
    dsimp only at houter
    rw [← houter]
    apply Pauses.andThen
    · show Pauses options receive (_ + 1) s _
      split
      · exact pauses_checkpoint_andThen options hs hvisit
      · exact pauses_andThen_of_handedOut_eq_nil rfl rfl hs hvisit
    · intro d hd
      rw [List.mem_singleton.mp hd]
      exact ⟨Nat.succ_ne_zero index, fun other hother => (hitems.2 other hother).1⟩
    · intro t ht
      rw [houter]
      exact ih (index + 1) hitems.2 ht

theorem pauses_enter (depth : Nat) (path leading : Text) (d : Inode) (via : Bool) (s : State)
    (hs : s.world.files.Sound) :
    Pauses options receive (leading.count (CodePoint.ofChar '/')) s
      (enter options receive depth path leading d via s) := by
  induction depth generalizing path leading d via s with
  | zero => exact pauses_of_handedOut_eq_nil rfl rfl hs
  | succ depth ih =>
    rw [enter]
    apply pauses_checkpoint_andThen options hs
    intro t ht
    split
    · exact pauses_of_handedOut_eq_nil rfl rfl ht
    · exact pauses_of_handedOut_eq_nil rfl rfl ht
    · next listed hscan =>
      obtain ⟨e, entries, hstat, hentries, rfl⟩ := FileSystem.scan_eq_ok_iff.mp hscan
      apply pauses_andThen_of_handedOut_eq_nil
      · rw [handedOut, List.filterMap_cons]
        exact filterMap_reported (fun _ => rfl) _
      · rfl
      · exact ht
      · intro u hu
        apply pauses_visitAll options hreceive hgoes ih
        · intro item hitem
          exact ⟨askable_of_mem_itemsOf ht (FileSystem.askable_of_stat hstat) hentries hitem,
            slash_not_mem_of_mem_itemsOf ht hentries hitem⟩
        · exact hu

/-- Behind every file a walk is in the middle of as many directories as the path of the file has segments,
and goes on with them. -/
theorem pauses_traverse (root : Path) {world : World} (hworld : world.files.Sound) :
    Pauses options receive 0 ⟨world, [], 0⟩ (traverse options receive root world) := by
  unfold traverse
  extract_lets start
  split
  · exact pauses_of_handedOut_eq_nil rfl rfl hworld
  · exact pauses_of_handedOut_eq_nil rfl rfl hworld
  · next i _ =>
    exact (pauses_enter options hreceive hgoes depthLimit root.text [] i false
      { start with visited := [i] } hworld).of_count rfl

end

end Walk

end BundleManifest
