/-
# BundleManifest.Proofs.Walk.Cancellation — walks that others cancel

Whoever receives the files of a walk may cancel it. Such a walk runs abreast of the one that nobody
cancels: up to any point both have done the same, or the cancelled one has stopped with what it had done
until then (`abreast_enter`). So a walk hands out all of its files or fails with a cancellation
(`abreast_traverse`).
-/
import BundleManifest.Proofs.Walk.Steady

namespace BundleManifest.Walk

/-- A receiver that changes nothing but the token. -/
def Receiver.OnlyCancels (receive : Receiver) : Prop :=
  ∀ n world, (receive n world).world.files = world.files ∧ (receive n world).halt = none

/-- Two states in the same place, the second one with a token that is not cancelled. -/
structure Beside (s t : State) : Prop where
  files : s.world.files = t.world.files
  visited : s.visited = t.visited
  count : s.count = t.count
  token : t.world.token.isCancelled = false

/-- One run has done the same as another, or has been cancelled on the way. -/
inductive Abreast (r q : Run) : Prop
  | together (htrace : r.trace = q.trace) (hhalt : r.halt = q.halt)
    (hstate : Beside r.state q.state)
  | stopped {message : Text} (hhalt : r.halt = some (.failed (.bundle (.cancelled message))))
    (htrace : r.trace <+: q.trace)

theorem abreast_skip {s t : State} (h : Beside s t) : Abreast (Run.skip s) (Run.skip t) :=
  .together rfl rfl h

theorem Abreast.andThen {r q : Run} {next following : State → Run} (h : Abreast r q)
    (hnext : ∀ s t, Beside s t → Abreast (next s) (following t)) :
    Abreast (r.andThen next) (q.andThen following) := by
  cases h with
  | together htrace hhalt hstate =>
    cases hq : q.halt with
    | some halt =>
      rw [Run.andThen_of_halt (hhalt.trans hq), Run.andThen_of_halt hq]
      exact .together htrace hhalt hstate
    | none =>
      have hrest := hnext _ _ hstate
      rw [Run.andThen_of_not_halt (hhalt.trans hq), Run.andThen_of_not_halt hq, htrace]
      cases hrest with
      | together htrace' hhalt' hstate' =>
        exact .together (congrArg (q.trace ++ ·) htrace') hhalt' hstate'
      | stopped hhalt' htrace' => exact .stopped hhalt' ((List.prefix_append_right_inj q.trace).mpr htrace')
  | stopped hhalt htrace =>
    rw [Run.andThen_of_halt hhalt]
    refine .stopped hhalt (htrace.trans ?_)
    -- the other run may have gone on
    cases hq : q.halt with
    | some halt => rw [Run.andThen_of_halt hq]
    | none =>
      rw [Run.trace_andThen hq]
      exact List.prefix_append ..

/-- Looking at the token is where the runs part. -/
theorem abreast_checkpoint {s t : State} (h : Beside s t) :
    Abreast (checkpoint s) (checkpoint t) := by
  have hgoes : checkpoint t = Run.skip t := by
    rw [checkpoint, CancellationToken.check_eq_none_iff.mpr h.token]
  rw [hgoes, checkpoint]
  cases s.world.token.check with
  | some message => exact .stopped rfl List.nil_prefix
  | none => exact abreast_skip h

section
variable {receive : Receiver} (hreceive : receive.OnlyCancels)
include hreceive

theorem abreast_handOut (path : Text) {s t : State} (h : Beside s t) :
    Abreast (handOut receive path s) (handOut Receiver.passive path t) := by
  obtain ⟨hfiles, hhalt⟩ := hreceive (s.count + 1) s.world
  exact .together rfl hhalt ⟨hfiles.trans h.files, h.visited, congrArg (· + 1) h.count, h.token⟩

variable {enter following : Text → Text → Inode → Bool → State → Run}
  (henter : ∀ path leading i via s t, Beside s t →
    Abreast (enter path leading i via s) (following path leading i via t))
include henter

theorem abreast_visit (directory leading : Text) (item : Item) {s t : State} (h : Beside s t) :
    Abreast (visit receive enter directory leading item s)
      (visit Receiver.passive following directory leading item t) := by
  unfold visit
  rw [h.files, h.visited]
  extract_lets below path
  split
  · exact abreast_handOut hreceive below h
  split
  · exact .together rfl rfl h
  · exact .together rfl rfl h
  · split
    · exact .together rfl rfl h
    · exact henter _ _ _ _ _ _ ⟨h.files, rfl, h.count, h.token⟩

theorem abreast_visitAll (options : Options) (directory leading : Text) (index : Nat)
    (items : List Item) {s t : State} (h : Beside s t) :
    Abreast (visitAll options receive enter directory leading index items s)
      (visitAll options Receiver.passive following directory leading index items t) := by
  induction items generalizing index s t with
  | nil => exact abreast_skip h
  | cons item items ih =>
    rw [visitAll, visitAll]
    refine Abreast.andThen (Abreast.andThen ?_ ?_) (fun s t h => ih (index + 1) h)
    · split
      · exact abreast_checkpoint h
      · exact abreast_skip h
    · exact fun s t h => abreast_visit hreceive henter directory leading item h

end

variable {receive : Receiver} (hreceive : receive.OnlyCancels) (options : Options)
include hreceive

theorem abreast_enter (depth : Nat) (path leading : Text) (d : Inode) (via : Bool) {s t : State}
    (h : Beside s t) :
    Abreast (enter options receive depth path leading d via s)
      (enter options Receiver.passive depth path leading d via t) := by
  induction depth generalizing path leading d via s t with
  | zero => exact abreast_skip h
  | succ depth ih =>
    rw [enter, enter]
    refine (abreast_checkpoint h).andThen fun s t h => ?_
    rw [h.files]
    split
    · exact .together rfl rfl h
    · exact .together rfl rfl h
    · refine Abreast.andThen (.together rfl rfl h) fun s t h => ?_
      exact abreast_visitAll hreceive (fun path leading d via s t h => ih path leading d via h)
        options path leading 0 _ h

/-- A walk does what it does when nobody cancels it, or fails with a cancellation. -/
theorem abreast_traverse (root : Path) (files : FileSystem) (token : CancellationToken)
    {other : CancellationToken} (hother : other.isCancelled = false) :
    Abreast (traverse options receive root ⟨files, token⟩)
      (traverse options Receiver.passive root ⟨files, other⟩) := by
  have hstart (visited : List Inode) :
      Beside ⟨⟨files, token⟩, visited, 0⟩ ⟨⟨files, other⟩, visited, 0⟩ := ⟨rfl, rfl, rfl, hother⟩
  unfold traverse
  dsimp only
  split
  · exact .together rfl rfl (hstart [])
  · exact .together rfl rfl (hstart [])
  · exact abreast_enter hreceive options depthLimit _ _ _ _ (hstart _)

omit hreceive in
/-- A walk that is cancelled before it begins does nothing. -/
theorem traverse_of_cancelled {token : CancellationToken} (htoken : token.isCancelled = true)
    {files : FileSystem} {root : Path} {d : Inode} (hroot : files.stat root.text = .ok d) :
    ∃ message, traverse options receive root ⟨files, token⟩
      = Run.fail (.bundle (.cancelled message)) ⟨⟨files, token⟩, [d], 0⟩ := by
  obtain ⟨message, hcheck⟩ := CancellationToken.exists_check htoken
  refine ⟨message, ?_⟩
  unfold traverse
  simp only [hroot]
  rw [depthLimit, enter, checkpoint]
  simp only [hcheck]
  rfl

end BundleManifest.Walk
