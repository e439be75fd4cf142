import ThreadPools.Containment.Threads

/-! # When a thread contains its callbacks -/
namespace ThreadPools.Containment
open Unwinding Unwinding.Code
open ThreadPools.Dynamic (QueuedJobState ThreadId)

variable {P A : Type} {drops : P → Behaviour P} {hooks : ThreadPoolHooks P} {job : PoolJob P} {n : ℕ}
variable {x y : Code Event P Unit} {z : Code Event P A} {a : A}

theorem runHook_iff {hook : Option (Behaviour P)} :
    (runHook drops hook).exit = .returned () ↔ ∀ b ∈ hook, Harmless drops b := by
  cases hook with
  | none => exact iff_of_true rfl nofun
  | some b =>
    rw [runHook, ignore_call, call_returned_iff]
    exact ⟨fun h c hc => Option.some.inj hc ▸ h, fun h => h b rfl⟩

theorem runHook_trace (hook : Option (Behaviour P)) : (runHook drops hook).trace = [] := by
  cases hook with
  | none => rfl
  | some b => exact ignore_trace (call_trace b)

theorem runWithoutHooks_iff : (runWithoutHooks drops job).exit = .returned () ↔ Defused drops (job.runResidue drops) := by
  rw [runWithoutHooks, PoolJob.run_eq]
  exact ignore_dropGlue_iff

theorem runWithoutHooks_trace (job : PoolJob P) : (runWithoutHooks drops job).trace = [] := by
  rw [runWithoutHooks, PoolJob.run_eq]
  exact ignore_trace (dropGlue_trace _)

/-- A task between its hooks, by which statement its payload is destroyed makes no difference. -/
theorem ThreadPoolWorker.runWithTaskHooks_iff {before after : Option (Behaviour P)} :
    (runWithTaskHooks drops job before after).exit = .returned () ↔
      (∀ b ∈ before, Harmless drops b) ∧ (∀ b ∈ after, Harmless drops b) ∧ Defused drops (job.runResidue drops) := by
  rw [← runHook_iff, ← runHook_iff, ← runWithoutHooks_iff, runWithTaskHooks, bind_returned_iff]
  constructor
  · rintro ⟨⟨⟩, hb, h⟩
    obtain ⟨r, hr, h⟩ := bind_returned_iff.mp h
    obtain ⟨ha, hd⟩ := inScope_returned_iff.mp h
    exact ⟨cleanup_returned_iff.mp hb, ha, bind_returned_iff.mpr ⟨r, hr, hd⟩⟩
  · rintro ⟨hb, ha, h⟩
    obtain ⟨r, hr, hd⟩ := bind_returned_iff.mp h
    exact ⟨(), cleanup_returned_iff.mpr hb, bind_returned_iff.mpr ⟨r, hr, inScope_returned_iff.mpr ⟨ha, hd⟩⟩⟩

theorem ThreadPoolWorker.runWithTaskHooks_trace (job : PoolJob P) (before after : Option (Behaviour P)) :
    (runWithTaskHooks drops job before after).trace = [] := by
  refine bind_trace (cleanup_trace (runHook_trace _) (dropGlue_trace _)) fun _ => ?_
  refine bind_trace ?_ fun r => inScope_trace (runHook_trace _) (dropResult_trace r)
  rw [catchUnwind_trace, PoolJob.run_eq]
  exact dropGlue_trace _

theorem FixedWorker.runWithTaskHooks_iff {before after : Option (Behaviour P)} :
    (runWithTaskHooks drops job before after).exit = .returned () ↔
      (∀ b ∈ before, Harmless drops b) ∧ (∀ b ∈ after, Harmless drops b) ∧ Defused drops (job.runResidue drops) := by
  rw [← runHook_iff, ← runHook_iff, ← runWithoutHooks_iff, runWithTaskHooks, bind_returned_iff]
  constructor
  · rintro ⟨⟨⟩, hb, h⟩
    obtain ⟨⟨⟩, hr, ha⟩ := bind_returned_iff.mp h
    exact ⟨cleanup_returned_iff.mp hb, ha, hr⟩
  · rintro ⟨hb, ha, hr⟩
    exact ⟨(), cleanup_returned_iff.mpr hb, bind_returned_iff.mpr ⟨(), hr, ha⟩⟩

theorem FixedWorker.runWithTaskHooks_trace (job : PoolJob P) (before after : Option (Behaviour P)) :
    (runWithTaskHooks drops job before after).trace = [] := by
  refine bind_trace (cleanup_trace (runHook_trace _) (dropGlue_trace _)) fun _ => ?_
  exact bind_trace (runWithoutHooks_trace job) fun _ => runHook_trace _

/-- With or without hooks, what a loop does with a claimed job. -/
theorem taskHarmless_iff {withHooks : PoolJob P → Option (Behaviour P) → Option (Behaviour P) → Code Event P Unit}
    (h : ∀ before after, (withHooks job before after).exit = .returned () ↔
      (∀ b ∈ before, Harmless drops b) ∧ (∀ b ∈ after, Harmless drops b) ∧ Defused drops (job.runResidue drops)) :
    (if hooks.hasTaskHooks then withHooks job (hooks.beforeTask.map (· n)) (hooks.afterTask.map (· n))
      else runWithoutHooks drops job).exit = .returned () ↔ TaskHarmless drops hooks n job := by
  have hmap : ∀ hook : Option (ℕ → Behaviour P),
      (∀ b ∈ hook.map (· n), Harmless drops b) ↔ ∀ b ∈ hook, Harmless drops (b n) := by
    intro hook
    cases hook <;> simp
  split
  · rw [h, hmap, hmap]
    exact ⟨fun ⟨hb, ha, hr⟩ => ⟨hb, ha, hr⟩, fun ⟨hb, ha, hr⟩ => ⟨hb, ha, hr⟩⟩
  · rename_i hnone
    rw [runWithoutHooks_iff]
    refine ⟨fun hr => ⟨?_, ?_, hr⟩, TaskHarmless.run⟩
    all_goals
      intro b hb
      simp [ThreadPoolHooks.hasTaskHooks, Option.mem_def.mp hb] at hnone

theorem ThreadPoolWorker.runClaimed_iff :
    (runClaimed drops hooks n job).exit = .returned () ↔ TaskHarmless drops hooks n job :=
  taskHarmless_iff fun _ _ => runWithTaskHooks_iff

theorem ThreadPoolWorker.runClaimed_trace (hooks : ThreadPoolHooks P) (n : ℕ) (job : PoolJob P) :
    (runClaimed drops hooks n job).trace = [] := by
  unfold runClaimed
  split
  · exact runWithTaskHooks_trace _ _ _
  · exact runWithoutHooks_trace job

theorem FixedWorker.runClaimed_iff :
    (runClaimed drops hooks n job).exit = .returned () ↔ TaskHarmless drops hooks n job :=
  taskHarmless_iff fun _ _ => runWithTaskHooks_iff

theorem FixedWorker.runClaimed_trace (hooks : ThreadPoolHooks P) (n : ℕ) (job : PoolJob P) :
    (runClaimed drops hooks n job).trace = [] := by
  unfold runClaimed
  split
  · exact runWithTaskHooks_trace _ _ _
  · exact runWithoutHooks_trace job

/-- Code between the two events of a claim or of a cancellation. -/
theorem bracket_returned_iff {e e' : Event} :
    (do emit e; x; emit e'; z).exit = .returned a ↔ x.exit = .returned () ∧ z.exit = .returned a := by
  constructor
  · intro h
    obtain ⟨⟨⟩, -, h⟩ := bind_returned_iff.mp h
    obtain ⟨⟨⟩, hx, h⟩ := bind_returned_iff.mp h
    obtain ⟨⟨⟩, -, hz⟩ := bind_returned_iff.mp h
    exact ⟨hx, hz⟩
  · rintro ⟨hx, hz⟩
    refine bind_returned_iff.mpr ⟨(), rfl, bind_returned_iff.mpr ⟨(), hx, ?_⟩⟩
    exact bind_returned_iff.mpr ⟨(), rfl, hz⟩

theorem bracket_eq {e e' : Event} (ht : x.trace = []) (hx : x.exit = .returned ()) :
    (do emit e; x; emit e'; z) = ⟨[e, e'] ++ z.trace, z.exit⟩ := by
  rw [eq_pure ht hx]
  rfl

namespace Contained

theorem of_trace {t : List Event} (hc : Settled .claimQueuedJob .finishRunningJob t)
    (hk : Settled .beginCancelQueuedJob .finishCancelledJob t) (hz : Contained z) :
    Contained (⟨t ++ z.trace, z.exit⟩ : Code Event P A) := ⟨hz.returns, hc.append hz.claims, hk.append hz.cancels⟩

theorem run_bracket (ht : x.trace = []) (hx : x.exit = .returned ()) (hz : Contained z) :
    Contained (do emit .claimQueuedJob; x; emit .finishRunningJob; z) := by
  rw [bracket_eq ht hx]
  exact of_trace (.pair (by decide)) (.of_absent (by decide) (by decide)) hz

theorem cancel_bracket (ht : x.trace = []) (hx : x.exit = .returned ()) (hz : Contained z) :
    Contained (do emit .beginCancelQueuedJob; x; emit .finishCancelledJob; z) := by
  rw [bracket_eq ht hx]
  exact of_trace (.of_absent (by decide) (by decide)) (.pair (by decide)) hz

/-- A thread whose trace shows neither a claim nor a cancellation. -/
theorem of_quiet (hz : z.exit = .returned a) (hc : ∀ e ∈ z.trace, e ≠ .claimQueuedJob ∧ e ≠ .finishRunningJob ∧
      e ≠ .beginCancelQueuedJob ∧ e ≠ .finishCancelledJob) : Contained z where
  returns := ⟨a, hz⟩
  claims := .of_absent (fun h => (hc _ h).1 rfl) fun h => (hc _ h).2.1 rfl
  cancels := .of_absent (fun h => (hc _ h).2.2.1 rfl) fun h => (hc _ h).2.2.2 rfl

end Contained

theorem ThreadPoolWorker.loop_iff {jobs : List (PoolJob P)} :
    (loop drops hooks n jobs).exit = .returned () ↔ TakesHarmless drops hooks n (jobs.map (·, false)) := by
  induction jobs generalizing n with
  | nil => exact iff_of_true rfl trivial
  | cons job jobs ih =>
    exact bracket_returned_iff.trans (and_congr runClaimed_iff ih)

theorem ThreadPoolWorker.loop_contained {jobs : List (PoolJob P)}
    (h : TakesHarmless drops hooks n (jobs.map (·, false))) : Contained (loop drops hooks n jobs) := by
  induction jobs generalizing n with
  | nil => exact .of_quiet rfl nofun
  | cons job jobs ih =>
    exact .run_bracket (runClaimed_trace hooks n job) (runClaimed_iff.mpr h.1) (ih h.2)

theorem FixedWorker.loop_iff {jobs : List (PoolJob P × Bool)} :
    (loop drops hooks n jobs).exit = .returned () ↔ TakesHarmless drops hooks n jobs := by
  induction jobs generalizing n with
  | nil => exact iff_of_true rfl trivial
  | cons take jobs ih =>
    obtain ⟨job, stopped⟩ := take
    cases stopped with
    | false => exact bracket_returned_iff.trans (and_congr runClaimed_iff ih)
    | true => exact bracket_returned_iff.trans (and_congr (job.cancel_exit drops) ih)

theorem FixedWorker.loop_contained {jobs : List (PoolJob P × Bool)} (h : TakesHarmless drops hooks n jobs) :
    Contained (loop drops hooks n jobs) := by
  induction jobs generalizing n with
  | nil => exact .of_quiet rfl nofun
  | cons take jobs ih =>
    obtain ⟨job, stopped⟩ := take
    cases stopped with
    | false => exact .run_bracket (runClaimed_trace hooks n job) (runClaimed_iff.mpr h.1) (ih h.2)
    | true => exact .cancel_bracket (job.cancel_trace drops) ((job.cancel_exit drops).mpr h.1) (ih h.2)

/-- The hooks around the loop of either worker. -/
theorem worker_contained_iff {jobs : List (PoolJob P × Bool)} {exits : Bool}
    (hx : x.exit = .returned () ↔ TakesHarmless drops hooks 0 jobs)
    (hc : TakesHarmless drops hooks 0 jobs → Contained x) :
    Contained (do
      runHook drops hooks.beforeWorkerStart
      x
      if exits then
        runHook drops hooks.afterWorkerStop
        emit .finishWorkerExit) ↔ WorkerHarmless drops hooks jobs exits := by
  constructor
  · rintro ⟨⟨⟨⟩, h⟩, -, -⟩
    obtain ⟨⟨⟩, hstart, h⟩ := bind_returned_iff.mp h
    obtain ⟨⟨⟩, hloop, h⟩ := bind_returned_iff.mp h
    refine ⟨runHook_iff.mp hstart, hx.mp hloop, fun he => ?_⟩
    rw [if_pos he] at h
    obtain ⟨⟨⟩, hstop, -⟩ := bind_returned_iff.mp h
    exact runHook_iff.mp hstop
  · rintro ⟨hstart, hjobs, hstop⟩
    have hloop := hc hjobs
    rw [eq_pure (runHook_trace _) (runHook_iff.mpr hstart), Unwinding.Code.pure_bind,
      bind_of_returned (hx.mpr hjobs)]
    refine .of_trace hloop.claims hloop.cancels ?_
    cases exits with
    | false => exact .of_quiet rfl nofun
    | true =>
      rw [if_pos rfl, eq_pure (runHook_trace _) (runHook_iff.mpr (hstop rfl))]
      exact .of_quiet rfl (by simp [Unwinding.Code.pure_bind, emit])

theorem accept_cleanup (h : job.acceptResidue drops = none) (d : Code Event P Unit) :
    cleanup (job.accept drops) d = pure (if job.acceptPanics then .error () else .ok ()) := by
  have hx := (job.accept_exit drops _).mpr ⟨h, rfl⟩
  rw [cleanup_of_returned hx]
  exact eq_pure (job.accept_trace drops) hx

theorem discard_eq {accepted : Bool} (h : Defused drops (job.captures accepted)) :
    job.discard drops accepted = pure () := eq_pure (job.discard_trace drops _) ((job.discard_exit drops _).mpr h)

theorem cancel_eq (h : Defused drops (job.cancelResidue drops)) : job.cancel drops = pure () :=
  eq_pure (job.cancel_trace drops) ((job.cancel_exit drops).mpr h)

section
variable {owner : ThreadId} {cancelRequested : Bool} {admission : Admission} {r : SubmitResult}

/-- The submission of a job whose acceptance unwinds. -/
theorem enqueue_panics (h : job.acceptResidue drops = none) (hp : job.acceptPanics = true)
    (hd : Defused drops (job.captures true)) :
    ThreadPoolInner.acceptAndEnqueueReservedJob drops owner job cancelRequested =
      ⟨(if job.ticketed then [Event.setEntry (.accepting owner false)] else []) ++
        Event.rollbackReservedSlot :: if job.ticketed then [Event.setEntry .rejected] else [],
        .returned (some .acceptancePanicked)⟩ := by
  simp only [ThreadPoolInner.acceptAndEnqueueReservedJob, accept_cleanup h, hp, if_true, discard_eq hd]
  cases job.ticketed <;> rfl

/-- The submission of an accepted job, with the cancellation that a ticket has asked for. -/
theorem enqueue_cancels (h : job.acceptResidue drops = none) (hp : job.acceptPanics = false)
    (ht : job.ticketed = true) (hr : cancelRequested = true) (hd : Defused drops (job.cancelResidue drops)) :
    ThreadPoolInner.acceptAndEnqueueReservedJob drops owner job cancelRequested =
      ⟨[Event.setEntry (.accepting owner false), Event.publishAcceptedJob, Event.setEntry .cancelling] ++
        ([Event.beginCancelQueuedJob, Event.finishCancelledJob] ++ [Event.setEntry .cancelled]), .returned none⟩ := by
  simp only [ThreadPoolInner.acceptAndEnqueueReservedJob, accept_cleanup h, hp, ht, hr, cancel_eq hd]
  rfl

theorem enqueue_publishes (h : job.acceptResidue drops = none) (hp : job.acceptPanics = false)
    (hr : ¬ (job.ticketed = true ∧ cancelRequested = true)) :
    ThreadPoolInner.acceptAndEnqueueReservedJob drops owner job cancelRequested =
      ⟨(if job.ticketed then [Event.setEntry (.accepting owner false)] else []) ++
        Event.publishAcceptedJob :: if job.ticketed then [Event.setEntry .queued] else [], .returned none⟩ := by
  simp only [ThreadPoolInner.acceptAndEnqueueReservedJob, accept_cleanup h, hp]
  cases ht : job.ticketed with
  | false => rfl
  | true =>
    obtain rfl : cancelRequested = false := Bool.eq_false_iff.mpr fun hc => hr ⟨ht, hc⟩
    rfl

theorem cleanup_accept_returned {d : Code Event P Unit} {a : Except Unit Unit}
    (h : (cleanup (job.accept drops) d).exit = .returned a) :
    job.acceptResidue drops = none ∧ a = if job.acceptPanics then .error () else .ok () :=
  (job.accept_exit drops a).mp (cleanup_returned_iff.mp h)

/-- A submission that returns has met nothing but harmless code. -/
theorem enqueue_returned
    (h : (ThreadPoolInner.acceptAndEnqueueReservedJob drops owner job cancelRequested).exit = .returned r) :
    SubmitHarmless drops job cancelRequested .reserved := by
  cases ht : job.ticketed with
  | false =>
    simp only [ThreadPoolInner.acceptAndEnqueueReservedJob, ht] at h
    obtain ⟨a, ha, h⟩ := bind_returned_iff.mp h
    obtain ⟨hres, rfl⟩ := cleanup_accept_returned ha
    refine ⟨hres, fun hp => ?_, fun _ hf => nomatch ht.symm.trans hf⟩
    simp only [hp, if_true] at h
    obtain ⟨⟨⟩, -, h⟩ := bind_returned_iff.mp h
    obtain ⟨⟨⟩, hd, -⟩ := bind_returned_iff.mp h
    exact (job.discard_exit drops true).mp hd
  | true =>
    simp only [ThreadPoolInner.acceptAndEnqueueReservedJob, ht] at h
    obtain ⟨⟨⟩, -, h⟩ := bind_returned_iff.mp h
    obtain ⟨a, ha, h⟩ := bind_returned_iff.mp h
    obtain ⟨hres, rfl⟩ := cleanup_accept_returned ha
    refine ⟨hres, fun hp => ?_, fun hp _ hr => ?_⟩
    · simp only [hp, if_true] at h
      obtain ⟨⟨⟩, -, h⟩ := bind_returned_iff.mp h
      obtain ⟨⟨⟩, -, h⟩ := bind_returned_iff.mp h
      obtain ⟨⟨⟩, hd, -⟩ := bind_returned_iff.mp h
      exact (job.discard_exit drops true).mp hd
    · simp only [hp, hr] at h
      obtain ⟨⟨⟩, -, h⟩ := bind_returned_iff.mp h
      obtain ⟨⟨⟩, -, h⟩ := bind_returned_iff.mp h
      obtain ⟨⟨⟩, -, h⟩ := bind_returned_iff.mp h
      obtain ⟨⟨⟩, hc, -⟩ := bind_returned_iff.mp h
      exact (job.cancel_exit drops).mp hc

theorem enqueue_contained (h : SubmitHarmless drops job cancelRequested .reserved) :
    SubmitContained job.acceptPanics job.ticketed
      (ThreadPoolInner.acceptAndEnqueueReservedJob drops owner job cancelRequested) := by
  obtain ⟨hres, hpanic, hcancel⟩ := h
  cases hp : job.acceptPanics with
  | true =>
    rw [enqueue_panics hres hp (hpanic hp)]
    cases job.ticketed with
    | false => exact ⟨.of_quiet rfl (by simp), fun _ => ⟨rfl, by simp, nofun⟩⟩
    | true => exact ⟨.of_quiet rfl (by simp), fun _ => ⟨rfl, by simp, fun _ => by simp⟩⟩
  | false =>
    by_cases hr : job.ticketed = true ∧ cancelRequested = true
    · rw [enqueue_cancels hres hp hr.1 hr.2 (hcancel hp hr.1 hr.2)]
      refine ⟨.of_trace (.of_absent (by simp) (by simp)) (.of_absent (by simp) (by simp))
        (z := ⟨[.beginCancelQueuedJob, .finishCancelledJob] ++ [.setEntry .cancelled], .returned none⟩) ?_, nofun⟩
      refine .of_trace (.of_absent (by simp) (by simp)) (.pair (by decide))
        (z := ⟨[.setEntry .cancelled], .returned none⟩) (.of_quiet rfl (by simp))
    · rw [enqueue_publishes hres hp hr]
      refine ⟨.of_quiet rfl ?_, nofun⟩
      cases job.ticketed <;> simp

/-- The slot that is reserved before and the guard that leaves afterwards change nothing. -/
theorem SubmitContained.framed {panics ticketed : Bool} {y : Code Event P SubmitResult} (before after : List Event)
    (h : SubmitContained panics ticketed y) (hb : ∀ e ∈ before, e = .reserveSlot) (ha : ∀ e ∈ after, e = .leave) :
    SubmitContained panics ticketed (⟨before ++ (y.trace ++ after), y.exit⟩ : Code Event P SubmitResult) := by
  have hbefore : ∀ e, e ≠ .reserveSlot → e ∉ before := fun e he hm => he (hb e hm)
  have hafter : ∀ e, e ≠ .leave → e ∉ after := fun e he hm => he (ha e hm)
  have hsettled : ∀ a b : Event, a ≠ .reserveSlot → a ≠ .leave → b ≠ .reserveSlot → b ≠ .leave →
      Settled a b y.trace → Settled a b (before ++ (y.trace ++ after)) := by
    intro a b ha ha' hb hb' hs
    exact (Settled.of_absent (hbefore a ha) (hbefore b hb)).append
      (hs.append (.of_absent (hafter a ha') (hafter b hb')))
  refine ⟨⟨h.returns, ?_, ?_⟩, fun hp => ?_⟩
  · exact hsettled .claimQueuedJob .finishRunningJob nofun nofun nofun nofun h.claims
  · exact hsettled .beginCancelQueuedJob .finishCancelledJob nofun nofun nofun nofun h.cancels
  · obtain ⟨hexit, hcount, hentry⟩ := h.rolledBack hp
    refine ⟨hexit, ?_, fun ht => List.mem_append_right _ (List.mem_append_left _ (hentry ht))⟩
    have hnone : before.count .rollbackReservedSlot = 0 := List.count_eq_zero.mpr (hbefore _ nofun)
    have hnone' : after.count .rollbackReservedSlot = 0 := List.count_eq_zero.mpr (hafter _ nofun)
    rw [List.count_append, List.count_append, hcount, hnone, hnone']

/-- A rejection returns exactly if the job can be dropped, inside the guard or before it. -/
theorem rejected_contained_iff {e : PoolJobSubmissionError} {ticketed : Bool} :
    SubmitContained false ticketed (do job.discard drops false; return some e : Code Event P SubmitResult) ↔
      Defused drops (job.captures false) := by
  rw [← job.discard_exit drops]
  constructor
  · rintro ⟨⟨⟨a, h⟩, -, -⟩, -⟩
    obtain ⟨⟨⟩, hd, -⟩ := bind_returned_iff.mp h
    exact hd
  · intro h
    rw [discard_eq ((job.discard_exit drops false).mp h)]
    exact ⟨.of_quiet rfl nofun, nofun⟩

theorem guarded_contained_iff {panics ticketed : Bool} {y : Code Event P SubmitResult} {Q : Prop}
    (hy : (∃ r, y.exit = .returned r) → Q) (hc : Q → SubmitContained panics ticketed y) :
    SubmitContained panics ticketed (inScope y (emit .leave)) ↔ Q := by
  constructor
  · rintro ⟨⟨⟨r, h⟩, -, -⟩, -⟩
    exact hy ⟨r, (inScope_returned_iff.mp h).1⟩
  · intro hq
    obtain ⟨r, hr⟩ := (hc hq).returns
    rw [inScope_of_returned hr rfl, ← hr]
    exact (hc hq).framed [] [.leave] nofun (by simp)

theorem reserved_contained_iff {panics ticketed : Bool} {y : Code Event P SubmitResult} {Q : Prop}
    (hy : ∀ r, y.exit = .returned r → Q) (hc : Q → SubmitContained panics ticketed y) :
    SubmitContained panics ticketed (inScope (do emit .reserveSlot; y) (emit .leave)) ↔ Q := by
  refine guarded_contained_iff ?_ fun hq => ?_
  · rintro ⟨r, h⟩
    obtain ⟨⟨⟩, -, h⟩ := bind_returned_iff.mp h
    exact hy r h
  · have hframe := (hc hq).framed [.reserveSlot] [] (by simp) nofun
    rw [List.append_nil] at hframe
    exact hframe

theorem submit_contained_iff :
    SubmitContained (admission.reserves && job.acceptPanics) job.ticketed
      (ThreadPoolInner.submit drops owner admission job cancelRequested) ↔
      SubmitHarmless drops job cancelRequested admission := by
  cases admission with
  | closed => exact rejected_contained_iff
  | rejected error =>
    refine guarded_contained_iff ?_ rejected_contained_iff.mpr
    rintro ⟨r, h⟩
    obtain ⟨⟨⟩, hd, -⟩ := bind_returned_iff.mp h
    exact (job.discard_exit drops false).mp hd
  | reserved => exact reserved_contained_iff (fun _ => enqueue_returned) enqueue_contained

/-- The fixed pool has no entries and no tickets. -/
theorem fixed_submit_contained_iff :
    SubmitContained (admission.reserves && job.acceptPanics) false (FixedThreadPoolInner.submit drops admission job) ↔
      SubmitHarmless drops job false admission := by
  cases admission with
  | closed => exact rejected_contained_iff
  | rejected error =>
    refine guarded_contained_iff ?_ rejected_contained_iff.mpr
    rintro ⟨r, h⟩
    obtain ⟨⟨⟩, hd, -⟩ := bind_returned_iff.mp h
    exact (job.discard_exit drops false).mp hd
  | reserved =>
    refine reserved_contained_iff (fun r h => ?_) fun h => ?_
    · obtain ⟨a, ha, h⟩ := bind_returned_iff.mp h
      obtain ⟨hres, rfl⟩ := cleanup_accept_returned ha
      refine ⟨hres, fun hp => ?_, fun _ _ => nofun⟩
      simp only [hp, if_true] at h
      obtain ⟨⟨⟩, -, h⟩ := bind_returned_iff.mp h
      obtain ⟨⟨⟩, hd, -⟩ := bind_returned_iff.mp h
      exact (job.discard_exit drops true).mp hd
    · rw [accept_cleanup h.1, Unwinding.Code.pure_bind]
      cases hp : job.acceptPanics with
      | true =>
        simp only [if_true, discard_eq (h.2.1 hp)]
        exact ⟨.of_quiet rfl (by simp [emit_bind, Unwinding.Code.pure_bind]), fun _ => ⟨rfl, rfl, nofun⟩⟩
      | false => exact ⟨.of_quiet rfl (by simp [emit_bind]), nofun⟩

end

theorem cancelAll_iff {jobs : List (PoolJob P)} :
    (cancelAll drops jobs).exit = .returned () ↔ ∀ job ∈ jobs, Defused drops (job.cancelResidue drops) := by
  induction jobs with
  | nil => exact iff_of_true rfl nofun
  | cons job jobs ih =>
    rw [List.forall_mem_cons, ← ih, ← job.cancel_exit drops, cancelAll, bind_returned_iff]
    constructor
    · rintro ⟨⟨⟩, hc, h⟩
      obtain ⟨⟨⟩, -, h⟩ := bind_returned_iff.mp h
      exact ⟨cleanup_returned_iff.mp hc, h⟩
    · rintro ⟨hc, h⟩
      exact ⟨(), cleanup_returned_iff.mpr hc, bind_returned_iff.mpr ⟨(), rfl, h⟩⟩

theorem cancelAll_trace {jobs : List (PoolJob P)} (h : ∀ job ∈ jobs, Defused drops (job.cancelResidue drops)) :
    (cancelAll drops jobs).trace = List.replicate jobs.length .finishCancelledJob := by
  induction jobs with
  | nil => rfl
  | cons job jobs ih =>
    obtain ⟨hjob, hjobs⟩ := List.forall_mem_cons.mp h
    have hc : (job.cancel drops).exit = .returned () := (job.cancel_exit drops).mpr hjob
    rw [cancelAll, cleanup_of_returned hc, cancel_eq hjob, Unwinding.Code.pure_bind, emit_bind, ih hjobs]
    rfl

theorem beginAll_eq (jobs : List (PoolJob P)) :
    (beginAll jobs : Code Event P Unit) = ⟨List.replicate jobs.length .beginCancelQueuedJob, .returned ()⟩ := by
  induction jobs with
  | nil => rfl
  | cons job jobs ih =>
    rw [beginAll, emit_bind, ih]
    rfl

/-- A call of `stop` finishes the cancellation of every job it has drained. -/
theorem stop_contained_iff {jobs : List (PoolJob P)} :
    Contained (stop drops jobs) ↔ ∀ job ∈ jobs, Defused drops (job.cancelResidue drops) := by
  have hstop : stop drops jobs =
      ⟨List.replicate jobs.length Event.beginCancelQueuedJob ++ (cancelAll drops jobs).trace, (cancelAll drops jobs).exit⟩ := by
    rw [stop, beginAll_eq]
    rfl
  rw [hstop, ← cancelAll_iff]
  constructor
  · rintro ⟨⟨⟨⟩, h⟩, -, -⟩
    exact h
  · intro h
    rw [cancelAll_trace (cancelAll_iff.mp h)]
    refine ⟨⟨(), h⟩, .of_absent ?_ ?_, .replicate (by decide) _⟩
    all_goals simp [List.mem_replicate]

theorem cancelQueuedEntry_contained_iff {entry : Option (PoolJob P)} :
    Contained (ThreadPoolInner.cancelQueuedEntry drops entry) ↔
      ∀ job ∈ entry, Defused drops (job.cancelResidue drops) := by
  cases entry with
  | none => exact iff_of_true (.of_quiet rfl nofun) nofun
  | some job =>
    have hforall : (∀ j ∈ some job, Defused drops (j.cancelResidue drops)) ↔ Defused drops (job.cancelResidue drops) :=
      ⟨fun h => h job rfl, fun h j hj => Option.some.inj hj ▸ h⟩
    rw [hforall, ← job.cancel_exit drops]
    constructor
    · rintro ⟨⟨b, h⟩, -, -⟩
      exact (bracket_returned_iff.mp h).1
    · intro h
      exact .cancel_bracket (job.cancel_trace drops) h (.of_quiet rfl nofun)

end ThreadPools.Containment
