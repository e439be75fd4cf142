import ThreadPools.Fixed.Workers

/-! # What `join` and the termination predicate of the fixed pool observe -/
namespace ThreadPools.Fixed
open Interleaving
open Move (call)

def Joining (p : Pc) : Prop := ∃ r, p = .idle r .join

def Pc.finishes : Pc → Bool
  | .worker (.finishRunning _) => true
  | _ => false

/-- When the last running job ends between a joiner's load of the slots and its load of
the running jobs, no accepted job holds a slot. -/
def QuietAtFinish : Machine.Guard Shared Pc Outcome := fun sh ps p _ =>
  p.finishes = true → sh.acct.runningCount = 1 → (∃ q ∈ ps, q = .idle .running .join) →
    ∀ e ∈ book sh ps, e.2.outstanding = true → Phase.weight .queueSlot e.2 = 0

instance (sh : Shared) (ps : Multiset Pc) (p : Pc) (c : Outcome) : Decidable (QuietAtFinish sh ps p c) :=
  have : Decidable (∃ q ∈ ps, q = Pc.idle .running .join) := Multiset.decidableExistsMultiset
  have : Decidable (∀ e ∈ book sh ps, e.2.outstanding = true → Phase.weight .queueSlot e.2 = 0) :=
    Multiset.decidableForallMultiset
  inferInstanceAs (Decidable (_ → _ → _ → _))

variable {config : FixedThreadPoolConfig} {s t u v : State Shared Pc}
variable {i : ℕ} {r : IdleRead} {us : List (State Shared Pc)} {ok : Machine.Guard Shared Pc Outcome}

theorem joining_moves (hf : machine.Follows ok u v) (hu : u.actors[i]? = some (.idle r .join)) :
    v.actors[i]? = some (.idle r .join) ∨
      v.shared = u.shared ∧ v.actors[i]? = some (idleStep u.shared r .join) := by
  refine (hf.moves hu).imp_right ?_
  rintro ⟨c, ⟨sh, p, new⟩, hs, hsh, hv⟩
  have he : some (u.shared, idleStep u.shared r .join, []) = some (sh, p, new) := hs
  cases he
  exact ⟨hsh, hv⟩

theorem idleStep_join {sh : Shared} {p : Pc} (h : idleStep sh r .join = p) (hp : p ≠ .join .park) :
    r.value sh.acct = 0 ∧ (r.next = none ∨ ∃ r', r.next = some r' ∧ p = .idle r' .join) := by
  unfold idleStep at h
  split at h
  · rename_i hz
    refine ⟨hz, ?_⟩
    split at h
    · rename_i r' hr
      exact Or.inr ⟨r', hr, h.symm⟩
    · rename_i hr
      exact Or.inl hr
  · exact absurd h.symm hp

theorem finishRunning_lowers {sh sh' : Shared} {p' : Pc} {c : Outcome} {j : JobId}
    (h : step sh c (.worker (.finishRunning j)) = some (sh', p')) (hpos : 0 < sh.acct.runningCount)
    (hz : sh'.acct.runningCount = 0) : sh.acct.runningCount = 1 := by
  simp only [step, workerStep, Shared.lower] at h
  split at h
  · rename_i a ha
    cases h
    have hsub := PoolAccounting.sub_count ha .running
    rw [show a.count .running = 0 from hz] at hsub
    exact hsub
  · cases h
    omega

/-- The end of the last running job, seen at a moment when no accepted job holds a slot. -/
theorem finished_of_last {sh sh' : Shared} {p p' : Pc} {rest : Multiset Pc} {c : Outcome}
    {exitGuard parkGuard : Prop} (inv : Consistent exitGuard parkGuard sh (p ::ₘ rest))
    (hp : ∃ j, p = .worker (.finishRunning j)) (h : step sh c p = some (sh', p'))
    (hn : ∀ e, p' ≠ .panicked e) (hz : sh'.acct.runningCount = 0)
    (hq : ∀ e ∈ book sh (p ::ₘ rest), e.2.outstanding = true → Phase.weight .queueSlot e.2 = 0) :
    AllFinished sh'.history := by
  obtain ⟨j, rfl⟩ := hp
  have law : Law sh'.acct sh'.history sh'.offered (stored sh' + p'.onto (rest.bind Pc.holdings)) :=
    (step_posted inv.onto h fun e he => absurd he (hn e)).recorded
  refine law.finished_of_none fun e he => ?_
  simp only [step, workerStep, Shared.lower] at h
  split at h
  case h_2 => cases h; exact absurd rfl (hn _)
  rename_i a ha
  cases h
  by_contra ho
  rw [Bool.not_eq_false] at ho
  have hrun : Phase.weight .running e.2 = 0 :=
    total_eq_zero_iff.mp ((law.counts .running).symm.trans hz) e he
  have hcount := Phase.outstanding_counted ho
  -- Everything but the finished job was there before.
  have hold : e ∈ stored sh + rest.bind Pc.holdings := by
    have he' : e ∈ stored sh + ((j, Ending.completed.phase) ::ₘ rest.bind Pc.holdings) := by
      rw [show stored sh + ((j, Ending.completed.phase) ::ₘ rest.bind Pc.holdings) =
        Book.stored sh.globalQueue (sh.finished ++ [(j, .completed)]) + rest.bind Pc.holdings from
        Book.stored_finish.symm]
      exact he
    rw [Multiset.add_cons] at he'
    rcases Multiset.mem_cons.mp he' with rfl | he'
    · simp [Ending.not_outstanding] at ho
    · exact he'
  have := hq e (by
    rw [book, Multiset.cons_bind]
    refine Multiset.mem_add.mpr ((Multiset.mem_add.mp hold).imp_right fun hm => ?_)
    exact Multiset.mem_add.mpr (Or.inr hm)) ho
  omega

/-- While a joiner that has read no slot waits to read `running`, the jobs that run now
end before it reads zero, and the last of them leaves nothing unfinished. -/
theorem joining_sees_last {l : List (State Shared Pc)}
    (he : machine.Stretch QuietAtFinish i Joining (.join .subWaiter) l) (hl : l = u :: us)
    (hrun : machine.Run QuietAtFinish (init config) u)
    (hu : u.actors[i]? = some (.idle .running .join)) (hpos : 0 < u.shared.acct.runningCount) :
    ∃ w ∈ l, AllFinished w.shared.history := by
  induction he generalizing u us with
  | @last v t p hp hD hf hq =>
    cases hl
    rcases joining_moves hf hu with ht | ⟨-, ht⟩
    · rw [hq] at ht
      cases ht
    · rw [hq] at ht
      have hz := (idleStep_join (Option.some.inj ht).symm nofun).1
      exact absurd hz (Nat.pos_iff_ne_zero.mp hpos)
  | @cons v w ws p hp hD hf h ih =>
    cases hl
    have inv := Consistent.of_free_run hrun.free
    have later : (∃ x ∈ w :: ws, AllFinished x.shared.history) → ∃ x ∈ v :: w :: ws, AllFinished x.shared.history :=
      fun ⟨x, hx, ha⟩ => ⟨x, List.mem_cons_of_mem v hx, ha⟩
    rcases joining_moves hf hu with hw | ⟨-, hw⟩
    · by_cases hwpos : 0 < w.shared.acct.runningCount
      · exact later (ih rfl (hrun.tail hf) hw hwpos)
      · refine ⟨w, by simp, ?_⟩
        have hmem : .idle .running .join ∈ v.actors := List.mem_of_getElem? hu
        cases hf with
        | @act k c p r hp hr hok =>
          obtain ⟨x, hx, rfl⟩ := Option.map_eq_some_iff.mp hr
          obtain ⟨rest, hrest, -⟩ := Machine.coe_set_append x.2 [] hp
          have hlast : ∃ j, p = .worker (.finishRunning j) :=
            (step_effect hx).running.resolve_left fun hle => hwpos (lt_of_lt_of_le hpos hle)
          have hz : x.1.acct.runningCount = 0 := Nat.eq_zero_of_not_pos hwpos
          have hone : v.shared.acct.runningCount = 1 := by
            obtain ⟨j, rfl⟩ := hlast
            exact finishRunning_lowers hx hpos hz
          rw [hrest] at inv hok
          refine finished_of_last inv hlast hx (inv.sound_step hx) hz fun e he ho => ?_
          refine hok ?_ hone ⟨_, hrest ▸ Multiset.mem_coe.mpr hmem, rfl⟩ e he ho
          obtain ⟨j, rfl⟩ := hlast
          rfl
        | @call op r hc =>
          refine absurd hpos ?_
          rwa [invoke_same hc] at hwpos
    · obtain ⟨p', hp', r', rfl⟩ := h.head
      rw [hw] at hp'
      have hz := (idleStep_join (Option.some.inj hp') nofun).1
      exact absurd hz (Nat.pos_iff_ne_zero.mp hpos)

theorem joining_quiet {l : List (State Shared Pc)}
    (he : machine.Stretch QuietAtFinish i Joining (.join .subWaiter) l) (hl : l = u :: us)
    (hrun : machine.Run QuietAtFinish (init config) u)
    (hu : u.actors[i]? = some (.idle r .join)) (hr : r.rank ≤ 1) : ∃ w ∈ l, AllFinished w.shared.history := by
  induction he generalizing u us r with
  | @last v t p hp hD hf hq =>
    cases hl
    rcases joining_moves hf hu with ht | ⟨-, ht⟩
    · rw [hq] at ht
      cases ht
    · rw [hq] at ht
      obtain ⟨-, hn | ⟨r', -, hn⟩⟩ := idleStep_join (Option.some.inj ht).symm nofun
      · have := IdleRead.rank_last hn
        omega
      · cases hn
  | @cons v w ws p hp hD hf h ih =>
    cases hl
    have later : (∃ x ∈ w :: ws, AllFinished x.shared.history) → ∃ x ∈ v :: w :: ws, AllFinished x.shared.history :=
      fun ⟨x, hx, ha⟩ => ⟨x, List.mem_cons_of_mem v hx, ha⟩
    rcases joining_moves hf hu with hw | ⟨hsh, hw⟩
    · exact later (ih rfl (hrun.tail hf) hw hr)
    · obtain ⟨p', hp', r', rfl⟩ := h.head
      rw [hw] at hp'
      obtain ⟨hz, hn | ⟨r'', hn, hr''⟩⟩ := idleStep_join (Option.some.inj hp') nofun
      · have := IdleRead.rank_last hn
        omega
      · cases hr''
        rw [Option.some.inj hp'] at hw
        cases r with
        | inflight =>
          cases hn
          exact later (ih rfl (hrun.tail hf) hw (by decide))
        | slots =>
          -- The slots are free now: whatever is unfinished is running.
          cases hn
          by_cases hpos : 0 < w.shared.acct.runningCount
          · exact later (joining_sees_last h rfl (hrun.tail hf) hw hpos)
          · rw [hsh] at hpos
            refine ⟨v, List.mem_cons_self, ?_⟩
            exact (Consistent.of_free_run hrun.free).recorded.quiet_finished hz (Nat.eq_zero_of_not_pos hpos)
        | running => simp [IdleRead.rank] at hr
        | cancelling => simp [IdleRead.rank] at hr

/-- `join` observes a quiescent pool: at some moment during a successful evaluation of
`is_idle` no accepted job is unfinished. -/
theorem join_sees_quiescence (hrun : machine.Run QuietAtFinish (init config) s)
    (hs : s.actors[i]? = some (.idle .inflight .join))
    (he : machine.Stretch QuietAtFinish i Joining (.join .subWaiter) (s :: us)) :
    ∃ w ∈ s :: us, AllFinished w.shared.history :=
  joining_quiet he rfl hrun hs (by decide)

/-- The worker runs job 0 when a call of `join` has taken the monitor. -/
def busySchedule : List (Move Outcome Op) :=
  call (Op.submit 0) :: (turns 1 11 Outcome.ok ++ turns 0 8 Outcome.ok) ++ call Op.join :: turns 2 2 Outcome.ok

/-- Job 0 ends between the joiner's load of the slots and its load of the running jobs. -/
theorem join_sees_quiescence_finishing : ∃ (s : State Shared Pc) (us : List (State Shared Pc)),
    machine.Run QuietAtFinish (init soleWorker) s ∧ s.shared.acct.runningCount = 1 ∧
      ∃ w ∈ s :: us, AllFinished w.shared.history := by
  have hexec : (machine.exec QuietAtFinish (init soleWorker) busySchedule).bind
      (fun s => (machine.trace QuietAtFinish s (turns 2 2 Outcome.ok ++ turns 0 3 Outcome.ok ++
        turns 2 2 Outcome.ok)).map fun l => (s.shared.acct.runningCount, l.map fun u => u.actors[2]?)) =
      some (1, (Pc.idle .inflight .join :: Pc.idle .slots .join ::
        (List.replicate 4 (Pc.idle .running .join) ++ [Pc.idle .cancelling .join])).map some ++
          [some (Pc.join .subWaiter)]) := by
    decide
  obtain ⟨s, hs, hl⟩ := Option.bind_eq_some_iff.mp hexec
  obtain ⟨l, hl, hpcs⟩ := Option.map_eq_some_iff.mp hl
  obtain ⟨hcount, hpcs⟩ := Prod.mk.inj hpcs
  have hrun := machine.exec_run hs
  have he := machine.trace_stretch (D := Joining) hl hpcs nofun (by simp [Joining, List.replicate])
  obtain ⟨us, rfl⟩ := machine.trace_eq_cons hl
  exact ⟨s, us, hrun, hcount, join_sees_quiescence hrun (List.cons.inj hpcs).1 he⟩

/-- The joiner reads no submission in flight and no slot. Then job 2 enters admission and
stays in its acceptance callback, job 0 submits job 1 and ends, and the joiner reads no
running job. -/
def chainSchedule : List (Move Outcome Op) :=
  turns 2 2 Outcome.ok ++ call (Op.submit 2) :: turns 3 3 Outcome.ok ++
    call (Op.submit 1) :: turns 4 9 Outcome.ok ++
    turns 0 3 Outcome.ok ++ turns 2 2 Outcome.ok

def chainBusy (u : State Shared Pc) : Bool :=
  [0, 1].any fun j =>
    decide (.acceptEnd ∈ u.shared.history j) && !decide (.accounted ∈ u.shared.history j)

theorem join_returns_while_busy : ∃ (s : State Shared Pc) (us : List (State Shared Pc)),
    machine.Run Machine.free (init soleWorker) s ∧ s.actors[2]? = some (Pc.idle .inflight .join) ∧
      machine.Stretch Machine.free 2 Joining (.join .subWaiter) (s :: us) ∧
      ∀ w ∈ s :: us, ¬ AllFinished w.shared.history := by
  have hexec : (machine.exec Machine.free (init soleWorker) busySchedule).bind
      (fun s => (machine.trace Machine.free s chainSchedule).map fun l =>
        (l.all chainBusy, l.map fun u => u.actors[2]?)) =
      some (true, (Pc.idle .inflight .join :: Pc.idle .slots .join ::
        (List.replicate 18 (Pc.idle .running .join) ++ [Pc.idle .cancelling .join])).map some ++
          [some (Pc.join .subWaiter)]) := by
    decide
  obtain ⟨s, hs, hl⟩ := Option.bind_eq_some_iff.mp hexec
  obtain ⟨l, hl, hpcs⟩ := Option.map_eq_some_iff.mp hl
  obtain ⟨hbusy, hpcs⟩ := Prod.mk.inj hpcs
  have he := machine.trace_stretch (D := Joining) hl hpcs nofun (by simp [Joining, List.replicate])
  obtain ⟨us, rfl⟩ := machine.trace_eq_cons hl
  have hhead : s.actors[2]? = some (.idle .inflight .join) := (List.cons.inj hpcs).1
  refine ⟨s, us, machine.exec_run hs, hhead, he, fun w hw hfin => ?_⟩
  have hb := List.all_eq_true.mp hbusy w hw
  simp only [chainBusy, List.any_eq_true, Bool.and_eq_true, decide_eq_true_eq, Bool.not_eq_true',
    decide_eq_false_iff_not] at hb
  obtain ⟨j, -, ha, hu⟩ := hb
  exact hu (hfin j ha)

structure Settled (sh : Shared) (ps : Multiset Pc) : Prop where
  closed : sh.acct.admission.closed = true
  inflight : sh.acct.inflightCount = 0 ∧ ∀ p ∈ ps, p.inside = false
  finished : AllFinished sh.history
  balance : sh.acct.count .submitted = sh.acct.count .completed + sh.acct.count .cancelled
  queue : sh.globalQueue = []
  callbacks : ∀ j, .cancelBegin ∈ sh.history j → .cancelEnd ∈ sh.history j
  workers : ∀ p ∈ ps, p.call = some .worker → p = .worker .exited

def Answers (sh : Shared) : Prop :=
  (∀ o c, step sh c (.observe (.term o)) = some (sh, .idle .inflight (.term o))) ∧
    ∀ r o c, step sh c (.idle r (.term o)) = some (sh, match r.next with
      | some r' => .idle r' (.term o)
      | none => o.decided true)

section
variable {exitGuard parkGuard : Prop} {sh : Shared} {ps : Multiset Pc}

theorem Consistent.settled (inv : Consistent exitGuard parkGuard sh ps) (ht : Terminated sh) : Settled sh ps := by
  obtain ⟨⟨-, hlive⟩, hclosed, hzero⟩ := ht
  have hin : sh.acct.inflightCount = 0 := hzero .inflight (by decide)
  have hslot : sh.acct.count .queueSlot = 0 := hzero .slots (by decide)
  have hrunning : sh.acct.count .running = 0 := hzero .running (by decide)
  have law := inv.recorded
  have hfin := law.quiet_finished hslot hrunning
  refine ⟨hclosed, ⟨hin, fun p hp => ?_⟩, hfin, law.quiet_balance hslot hrunning,
    law.queue_nil (law.queued_zero hslot), fun j hc => ?_, fun p hp hw => ?_⟩
  · have := inv.gauged.eq_zero (g := .inflight) hin p hp
    cases h : p.inside with
    | false => rfl
    | true => simp [Gauge.weight, h] at this
  · exact law.cancel_returned (hfin j (law.accept_of_cancel hc)) hc
  · have hl := inv.live_false hlive p hp
    cases p with
    | worker w => cases w <;> first | rfl | cases hl
    | cancel p k => cases k <;> first | (cases hw; done) | cases hl
    | idle r k => cases k <;> first | (cases hw; done) | cases hl
    | _ => cases hw

theorem Terminated.answers (ht : Terminated sh) : Answers sh := by
  refine ⟨fun o c => ?_, fun r o c => ?_⟩
  · simp only [Fixed.step, observeStep, isTerminatedHead_iff.mpr ht.1, if_true]
  · have hz : r.value sh.acct = 0 := ht.2.2 r (by cases r <;> decide)
    simp only [Fixed.step, idleStep, hz, if_true]
    cases r <;> rfl

end

/-- When `is_terminated_locked` answers `true` the pool has settled, and from then on
every evaluation answers `true`. -/
theorem settled_for_good {o : Observer} (hrun : machine.Run Machine.free (init config) t)
    (hm : .idle .cancelling (.term o) ∈ t.actors) (hz : t.shared.acct.count .cancelling = 0)
    (hu : machine.Run Machine.free t u) : Settled u.shared u.actors ∧ Answers u.shared := by
  obtain ⟨hd, hs⟩ : Deserted t.shared ∧ t.shared.acct.Sealed 3 :=
    (Consistent.of_free_run hrun).known _ (Multiset.mem_coe.mpr hm)
  have ht : Terminated t.shared := ⟨hd, hs.more (r := .cancelling) hz⟩
  have hend : Terminated u.shared := by
    refine invariant_along (J := fun sh _ => Terminated sh) hrun ?_ ?_ hu ht
    · exact fun sh p rest c sh' p' inv ht _ hm => ht.step (step_effect hm) inv.gauged inv.onto
    · intro sh ps op sh' p _ ht hm
      rw [invoke_same hm]
      exact ht
  exact ⟨(Consistent.of_free_run (hrun.trans hu)).settled hend, hend.answers⟩

theorem observed_sorted (hrun : machine.Run Machine.free (init config) t) :
    t.shared.observed.Pairwise fun l l' => l.rank ≤ l'.rank :=
  (Consistent.of_free_run hrun).observed.sorted

end ThreadPools.Fixed
