import ThreadPools.Accounting.PoolAccounting
import ThreadPools.Interleaving.Totals
import Mathlib.Tactic.Abel

/-! # The book of a pool's jobs

Every job that was handed to `submit` stands in exactly one phase. A phase fixes
which of the seven counters the job contributes to and which of its callbacks have
been invoked, down to the single counter updates inside one accounting transition.
The law says that the counters are the sums over the book, that no job is entered
twice and that the recorded callback history is the one of the phase. It is kept
by every exchange of one job's phase that moves the counters accordingly.
-/
namespace ThreadPools
open Interleaving

inductive JobEvent where
  | acceptBegin | acceptEnd | acceptPanicked
  | runBegin | runEnd
  | cancelBegin | cancelEnd
  | accounted
  deriving DecidableEq, Repr

inductive Phase where
  /-- Handed to `submit`, nothing reserved. -/
  | offered
  /-- `submit` returns an error and no slot is held. -/
  | rejected (error : PoolJobSubmissionError)
  | reserved
  | accepting
  /-- The acceptance callback panicked and the slot is not yet rolled back. -/
  | refused
  | accepted
  /-- Between the two updates of `publish_accepted_job`. -/
  | submitted
  | queued
  /-- `claim_queued_job` after its first update, then after its second one. -/
  | claiming
  | claimed
  | ready
  | running
  | ran
  /-- Between the two updates of `finish_running_job`. -/
  | finishing
  | completed
  /-- Between the two updates of `begin_cancel_queued_job`. -/
  | withdrawing
  | withdrawn
  | cancelling
  | cancelReturned
  /-- `finish_cancelled_job` after its first update, then after its second one. -/
  | settling
  | settled
  | cancelled
  deriving DecidableEq, Repr

namespace Phase

def weight : Counter → Phase → ℕ
  | .queueSlot, .reserved | .queueSlot, .accepting | .queueSlot, .refused | .queueSlot, .accepted
  | .queueSlot, .submitted | .queueSlot, .queued | .queueSlot, .claiming | .queueSlot, .claimed
  | .queueSlot, .withdrawing | .queueSlot, .withdrawn | .queueSlot, .cancelling
  | .queueSlot, .cancelReturned | .queueSlot, .settling | .queueSlot, .settled => 1
  | .queueSlot, _ => 0
  | .queued, .queued => 1
  | .queued, _ => 0
  | .running, .claimed | .running, .ready | .running, .running | .running, .ran
  | .running, .finishing => 1
  | .running, _ => 0
  | .cancelling, .withdrawn | .cancelling, .cancelling | .cancelling, .cancelReturned
  | .cancelling, .settling => 1
  | .cancelling, _ => 0
  | .submitted, .offered | .submitted, .rejected _ | .submitted, .reserved | .submitted, .accepting
  | .submitted, .refused | .submitted, .accepted => 0
  | .submitted, _ => 1
  | .completed, .finishing | .completed, .completed => 1
  | .completed, _ => 0
  | .cancelled, .settling | .cancelled, .settled | .cancelled, .cancelled => 1
  | .cancelled, _ => 0

theorem weight_le_one (c : Counter) (ph : Phase) : weight c ph ≤ 1 := by
  cases c <;> cases ph <;> first | exact Nat.le_refl 1 | exact Nat.zero_le 1

def history : Phase → List JobEvent
  | .offered | .rejected (.rejected _) | .reserved => []
  | .accepting => [.acceptBegin]
  | .refused | .rejected .acceptancePanicked => [.acceptBegin, .acceptPanicked]
  | .accepted | .submitted | .queued | .claiming | .claimed | .ready
  | .withdrawing | .withdrawn => [.acceptBegin, .acceptEnd]
  | .running => [.acceptBegin, .acceptEnd, .runBegin]
  | .ran | .finishing => [.acceptBegin, .acceptEnd, .runBegin, .runEnd]
  | .completed => [.acceptBegin, .acceptEnd, .runBegin, .runEnd, .accounted]
  | .cancelling => [.acceptBegin, .acceptEnd, .cancelBegin]
  | .cancelReturned | .settling | .settled => [.acceptBegin, .acceptEnd, .cancelBegin, .cancelEnd]
  | .cancelled => [.acceptBegin, .acceptEnd, .cancelBegin, .cancelEnd, .accounted]

/-- Acceptance succeeded and the accounting of the job is not finished. -/
def outstanding (ph : Phase) : Bool :=
  decide (.acceptEnd ∈ ph.history) && !decide (.accounted ∈ ph.history)

/-- Some thread is between two counter updates of one accounting transition. -/
def inTransition : Phase → Bool
  | .submitted | .claiming | .claimed | .finishing | .withdrawing | .settling | .settled => true
  | _ => false

def inCallback : Phase → Bool
  | .accepting | .running | .cancelling => true
  | _ => false

/-- A slot that its submitter has neither published nor rolled back. -/
def provisional : Phase → Bool
  | .reserved | .accepting | .refused | .accepted => true
  | _ => false

/-- The callbacks of a job are invoked at most once, the acceptance callback returns
before the others begin and at most one of the others begins. -/
structure ExactlyOnce (h : List JobEvent) : Prop where
  accept_le : h.count .acceptBegin ≤ 1
  call_le : h.count .runBegin + h.count .cancelBegin ≤ 1
  accept_first : .runBegin ∈ h ∨ .cancelBegin ∈ h → [.acceptBegin, .acceptEnd] <+: h

theorem history_exactlyOnce (ph : Phase) : ExactlyOnce ph.history := by
  cases ph with
  | rejected e =>
    cases e with
    | rejected error => exact ⟨Nat.zero_le 1, Nat.zero_le 1, by simp [history]⟩
    | acceptancePanicked => exact ⟨by decide, by decide, by decide⟩
  | _ => exact ⟨by decide, by decide, by decide⟩

/-- From `ph` to `ph'` a job starts to count in `c` and changes nothing else. -/
def Raises (c : Counter) (ph ph' : Phase) : Prop :=
  ∀ d, weight d ph' = weight d ph + if d = c then 1 else 0

theorem raises_reserved : Raises .queueSlot .offered .reserved := by intro d; cases d <;> rfl
theorem raises_submitted : Raises .submitted .accepted .submitted := by intro d; cases d <;> rfl
theorem raises_queued : Raises .queued .submitted .queued := by intro d; cases d <;> rfl
theorem raises_claimed : Raises .running .claiming .claimed := by intro d; cases d <;> rfl
theorem raises_finishing : Raises .completed .ran .finishing := by intro d; cases d <;> rfl
theorem raises_withdrawn : Raises .cancelling .withdrawing .withdrawn := by intro d; cases d <;> rfl
theorem raises_settling : Raises .cancelled .cancelReturned .settling := by intro d; cases d <;> rfl

-- The decrements, read backwards: the earlier phase counts once more.
theorem raises_refused : Raises .queueSlot (.rejected .acceptancePanicked) .refused := by
  intro d; cases d <;> rfl
theorem raises_unclaimed : Raises .queued .claiming .queued := by intro d; cases d <;> rfl
theorem raises_unready : Raises .queueSlot .ready .claimed := by intro d; cases d <;> rfl
theorem raises_uncompleted : Raises .running .completed .finishing := by intro d; cases d <;> rfl
theorem raises_unwithdrawn : Raises .queued .withdrawing .queued := by intro d; cases d <;> rfl
theorem raises_unsettled : Raises .cancelling .settled .settling := by intro d; cases d <;> rfl
theorem raises_uncancelled : Raises .queueSlot .cancelled .settled := by intro d; cases d <;> rfl

/-- Outside the transitions an accepted job is counted in exactly one place. -/
theorem submitted_split {ph : Phase} (h : ph.inTransition = false) :
    weight .submitted ph = weight .queued ph + weight .running ph + weight .cancelling ph +
      weight .completed ph + weight .cancelled ph := by
  cases ph <;> first | rfl | cases h

theorem slot_split {ph : Phase} (h : ph.inTransition = false) :
    weight .queueSlot ph = (if ph.provisional then 1 else 0) + weight .queued ph +
      weight .cancelling ph := by
  cases ph <;> first | rfl | cases h

/-- An outstanding job holds a slot or is counted as running. -/
theorem outstanding_counted {ph : Phase} (h : ph.outstanding = true) :
    0 < weight .queueSlot ph + weight .running ph := by
  cases ph with
  | rejected e => cases e <;> simp [outstanding, history] at h
  | _ => first | decide | exact absurd h (by decide)

/-- A finished job contributes once to its outcome and to nothing else. -/
theorem settled_weights {ph : Phase} (hs : weight .queueSlot ph = 0) (hr : weight .running ph = 0) :
    weight .submitted ph = weight .completed ph + weight .cancelled ph := by
  cases ph <;> first | rfl | exact absurd hs (by decide) | exact absurd hr (by decide)

def cancels : Phase → Bool
  | .withdrawn | .cancelling | .cancelReturned | .settling | .settled | .cancelled => true
  | _ => false

/-- Between its two counter updates a cancellation is counted twice. -/
theorem cancel_split (ph : Phase) :
    weight .cancelling ph + weight .cancelled ph = ph.cancels.toNat + if ph = .settling then 1 else 0 := by
  cases ph <;> rfl

theorem cancels_le_submitted (ph : Phase) : ph.cancels.toNat ≤ weight .submitted ph := by
  cases ph <;> first | exact Nat.le_refl 1 | exact Nat.zero_le _

def Final (ph : Phase) : Prop := ∀ (ph' : Phase) (e : JobEvent), ph'.history ≠ ph.history ++ [e]

theorem final_cancelled : Final .cancelled := by
  intro ph' e h
  cases ph' with
  | rejected error => cases error <;> simp [history] at h
  | _ => simp [history] at h

theorem final_refused : Final (.rejected .acceptancePanicked) := by
  intro ph' e h
  cases ph' with
  | rejected error => cases error <;> simp [history] at h
  | _ => simp [history] at h

theorem eq_cancelled {ph : Phase} (h : ph.history = history .cancelled) : ph = .cancelled := by
  cases ph with
  | cancelled => rfl
  | rejected error => cases error <;> simp [history] at h
  | _ => simp [history] at h

end Phase

inductive Ending where
  | completed | cancelled
  deriving DecidableEq, Repr

def Ending.phase : Ending → Phase
  | .completed => .completed
  | .cancelled => .cancelled

theorem Ending.not_outstanding (e : Ending) : e.phase.outstanding = false := by cases e <;> decide

abbrev Book := Multiset (JobId × Phase)

def Book.sum (c : Counter) (book : Book) : ℕ := total (fun e => Phase.weight c e.2) book

def Book.begun (book : Book) : ℕ := total (fun e => e.2.cancels.toNat) book

def AllFinished (history : JobId → List JobEvent) : Prop :=
  ∀ j, .acceptEnd ∈ history j → .accounted ∈ history j

def Book.owners (j : JobId) (book : Book) : ℕ :=
  total (fun e => if e.1 = j ∧ e.2.outstanding = true then 1 else 0) book

/-- The jobs that no actor holds: those in the queue and the finished ones. -/
def Book.stored (queue : List JobId) (finished : List (JobId × Ending)) : Book :=
  ((queue.map fun j => (j, Phase.queued) : List (JobId × Phase)) : Book) +
    ((finished.map fun e => (e.1, e.2.phase) : List (JobId × Phase)) : Book)

def Book.entered (ph : Phase) : List JobId → Book → Book
  | [], B => B
  | j :: jobs, B => (j, ph) ::ₘ entered ph jobs B

def Book.single : Option (JobId × Phase) → Book → Book
  | some e, B => e ::ₘ B
  | none, B => B

namespace Book
variable {queue queue' : List JobId} {finished : List (JobId × Ending)} {held : Book} {j : JobId}

theorem entered_add (ph : Phase) (jobs : List JobId) (A B : Book) :
    entered ph jobs (A + B) = entered ph jobs A + B := by
  induction jobs with
  | nil => rfl
  | cons j jobs ih => rw [entered, entered, ih, Multiset.cons_add]

theorem entered_cons (ph : Phase) (jobs : List JobId) (e : JobId × Phase) (B : Book) :
    entered ph jobs (e ::ₘ B) = e ::ₘ entered ph jobs B := by
  induction jobs with
  | nil => rfl
  | cons j jobs ih => rw [entered, entered, ih, Multiset.cons_swap]

theorem entered_append (ph : Phase) (jobs : List JobId) (j : JobId) (B : Book) :
    entered ph (jobs ++ [j]) B = (j, ph) ::ₘ entered ph jobs B := by
  induction jobs with
  | nil => rfl
  | cons i jobs ih => rw [List.cons_append, entered, entered, ih, Multiset.cons_swap]

theorem entered_phase {ph : Phase} {jobs : List JobId} {e : JobId × Phase} (h : e ∈ entered ph jobs 0) :
    e.2 = ph := by
  induction jobs with
  | nil => exact absurd h (Multiset.notMem_zero e)
  | cons j jobs ih =>
    rcases Multiset.mem_cons.mp h with rfl | h
    · rfl
    · exact ih h

theorem total_entered (f : Phase → ℕ) (ph : Phase) (jobs : List JobId) (B : Book) :
    total (fun e => f e.2) (entered ph jobs B) = jobs.length * f ph + total (fun e => f e.2) B := by
  induction jobs with
  | nil => simp [entered]
  | cons i jobs ih =>
    rw [entered, total_cons, ih, List.length_cons, Nat.add_mul, Nat.one_mul]
    exact Nat.add_left_comm _ _ _ |>.trans (Nat.add_assoc _ _ _).symm

theorem single_add (e : Option (JobId × Phase)) (A B : Book) : single e (A + B) = single e A + B := by
  cases e with
  | none => rfl
  | some e => exact (Multiset.cons_add e A B).symm

theorem mem_stored (hj : j ∈ queue) : (j, Phase.queued) ∈ stored queue finished :=
  Multiset.mem_add.mpr (Or.inl (Multiset.mem_coe.mpr (List.mem_map.mpr ⟨j, hj, rfl⟩)))

/-- What no actor holds was accepted and is in no transition. -/
theorem stored_phase {e : JobId × Phase} (h : e ∈ stored queue finished) :
    .acceptEnd ∈ e.2.history ∧ e.2.inTransition = false ∧ e.2.provisional = false := by
  rcases Multiset.mem_add.mp h with h | h
  · obtain ⟨i, -, rfl⟩ := List.mem_map.mp (Multiset.mem_coe.mp h)
    exact ⟨by simp [Phase.history], rfl, rfl⟩
  · obtain ⟨⟨j, ending⟩, -, rfl⟩ := List.mem_map.mp (Multiset.mem_coe.mp h)
    cases ending <;> exact ⟨by simp [Ending.phase, Phase.history], rfl, rfl⟩

theorem stored_idle {e : JobId × Phase} (h : e ∈ stored queue finished) : e.2.inCallback = false := by
  rcases Multiset.mem_add.mp h with h | h
  · obtain ⟨i, -, rfl⟩ := List.mem_map.mp (Multiset.mem_coe.mp h)
    rfl
  · obtain ⟨⟨j, ending⟩, -, rfl⟩ := List.mem_map.mp (Multiset.mem_coe.mp h)
    cases ending <;> rfl

theorem stored_push : stored (queue ++ [j]) finished + held = stored queue finished + (j, .queued) ::ₘ held := by
  simp only [stored, List.map_append, List.map_cons, List.map_nil, ← Multiset.coe_add, Multiset.coe_singleton]
  rw [← Multiset.singleton_add (j, Phase.queued) held]
  abel

theorem stored_remove (hq : queue.Perm (j :: queue')) :
    stored queue finished + held = stored queue' finished + (j, .queued) ::ₘ held := by
  have hm : ((queue.map fun i => (i, Phase.queued) : List (JobId × Phase)) : Book) =
      (((j :: queue').map fun i => (i, Phase.queued) : List (JobId × Phase)) : Book) :=
    Multiset.coe_eq_coe.mpr (hq.map _)
  simp only [stored, hm, List.map_cons, ← Multiset.cons_coe, Multiset.cons_add, Multiset.add_cons]

theorem stored_finish {e : Ending} :
    stored queue (finished ++ [(j, e)]) + held = stored queue finished + (j, e.phase) ::ₘ held := by
  simp only [stored, List.map_append, List.map_cons, List.map_nil, ← Multiset.coe_add, Multiset.coe_singleton]
  rw [← Multiset.singleton_add (j, e.phase) held]
  abel

/-- A queued job is owned by the queue and a finished one by nobody. -/
theorem stored_owners : owners j (stored queue finished) = queue.count j := by
  have hq : owners j ((queue.map fun i => (i, Phase.queued) : List (JobId × Phase)) : Book) =
      queue.count j := by
    induction queue with
    | nil => rfl
    | cons i q ih =>
      rw [owners] at ih ⊢
      rw [List.map_cons, ← Multiset.cons_coe, total_cons, ih, List.count_cons, Nat.add_comm]
      by_cases hi : i = j
      · simp [hi, Phase.outstanding, Phase.history]
      · simp [hi]
  have hf : owners j ((finished.map fun e => (e.1, e.2.phase) : List (JobId × Phase)) : Book) = 0 := by
    refine total_eq_zero_iff.mpr fun e he => if_neg fun hc => ?_
    obtain ⟨x, -, rfl⟩ := List.mem_map.mp (Multiset.mem_coe.mp he)
    simp [x.2.not_outstanding] at hc
  have hs := total_add (fun e : JobId × Phase => if e.1 = j ∧ e.2.outstanding = true then 1 else 0)
    ((queue.map fun i => (i, Phase.queued) : List (JobId × Phase)) : Book)
    ((finished.map fun e => (e.1, e.2.phase) : List (JobId × Phase)) : Book)
  exact hs.trans (by rw [← owners, ← owners, hq, hf, Nat.add_zero])

end Book

structure Law (acct : PoolAccounting) (history : JobId → List JobEvent) (offered : JobId → Bool)
    (book : Book) : Prop where
  counts : ∀ c, acct.count c = book.sum c
  owned : ∀ j, (book.map Prod.fst).count j = if offered j then 1 else 0
  traced : ∀ e ∈ book, history e.1 = e.2.history
  untouched : ∀ j, offered j = false → history j = []

namespace Law
variable {acct acct' : PoolAccounting} {history history' : JobId → List JobEvent}
variable {offered : JobId → Bool} {book : Book} {j : JobId} {ph ph' : Phase}

theorem nodup (h : Law acct history offered book) : (book.map Prod.fst).Nodup := by
  refine Multiset.nodup_iff_count_le_one.mpr fun j => ?_
  rw [h.owned j]
  split <;> omega

theorem not_mem_rest (h : Law acct history offered ((j, ph) ::ₘ book)) {e : JobId × Phase}
    (he : e ∈ book) : e.1 ≠ j := by
  have hn := h.nodup
  rw [Multiset.map_cons, Multiset.nodup_cons] at hn
  intro hj
  exact hn.1 (Multiset.mem_map.mpr ⟨e, he, hj⟩)

theorem eq_of_mem (h : Law acct history offered book) (h₁ : (j, ph) ∈ book) (h₂ : (j, ph') ∈ book) :
    ph = ph' := by
  obtain ⟨rest, rfl⟩ := Multiset.exists_cons_of_mem h₁
  rcases Multiset.mem_cons.mp h₂ with h₂ | h₂
  · exact (Prod.ext_iff.mp h₂).2.symm
  · exact absurd rfl (h.not_mem_rest h₂)

theorem exists_entry (h : Law acct history offered book) (hj : offered j = true) : ∃ ph, (j, ph) ∈ book := by
  have hc := h.owned j
  rw [hj] at hc
  obtain ⟨e, he, rfl⟩ := Multiset.mem_map.mp (Multiset.count_pos.mp (by rw [hc]; exact Nat.one_pos))
  exact ⟨e.2, he⟩

theorem exists_phase (h : Law acct history offered book) (j : JobId) : ∃ ph : Phase, history j = ph.history := by
  cases hj : offered j with
  | false => exact ⟨.offered, h.untouched j hj⟩
  | true =>
    obtain ⟨ph, he⟩ := h.exists_entry hj
    exact ⟨ph, h.traced _ he⟩

/-- A job whose accounting is finished has no cancellation callback running. -/
theorem cancel_returned (h : Law acct history offered book) (ha : .accounted ∈ history j)
    (hc : .cancelBegin ∈ history j) : .cancelEnd ∈ history j := by
  obtain ⟨ph, hp⟩ := h.exists_phase j
  rw [hp] at ha hc ⊢
  cases ph with
  | rejected e => cases e <;> simp [Phase.history] at ha
  | _ => revert ha hc; decide

theorem exactlyOnce (h : Law acct history offered book) (j : JobId) : Phase.ExactlyOnce (history j) := by
  obtain ⟨ph, hp⟩ := h.exists_phase j
  rw [hp]
  exact ph.history_exactlyOnce

/-- An accepted job whose accounting is unfinished has exactly one owner. -/
theorem owners_eq_one (h : Law acct history offered book) (ha : .acceptEnd ∈ history j)
    (hu : .accounted ∉ history j) : book.owners j = 1 := by
  have hj : offered j = true := by
    cases hj : offered j with
    | true => rfl
    | false => simp [h.untouched j hj] at ha
  obtain ⟨ph, he⟩ := h.exists_entry hj
  obtain ⟨rest, rfl⟩ := Multiset.exists_cons_of_mem he
  have ho : ph.outstanding = true := by
    rw [h.traced _ he] at ha hu
    simp [Phase.outstanding, ha, hu]
  have hrest : Book.owners j rest = 0 :=
    total_eq_zero_iff.mpr fun e hm => if_neg fun hc => h.not_mem_rest hm hc.1
  rw [Book.owners, total_cons, if_pos ⟨rfl, ho⟩]
  exact congrArg (1 + ·) hrest

/-- One job changes its phase and the counters change by the difference. -/
theorem exchange (h : Law acct history offered ((j, ph) ::ₘ book))
    (hc : ∀ c, acct'.count c + Phase.weight c ph = acct.count c + Phase.weight c ph')
    (hj : history' j = ph'.history) (ho : ∀ k, k ≠ j → history' k = history k) :
    Law acct' history' offered ((j, ph') ::ₘ book) := by
  refine ⟨fun c => ?_, fun k => ?_, fun e he => ?_, fun k hk => ?_⟩
  · have h₁ := h.counts c
    have h₂ := hc c
    simp only [Book.sum, total_cons] at h₁ ⊢
    omega
  · simpa using h.owned k
  · rcases Multiset.mem_cons.mp he with rfl | he
    · exact hj
    · rw [ho _ (h.not_mem_rest he)]
      exact h.traced e (Multiset.mem_cons_of_mem he)
  · have hkj : k ≠ j := by
      rintro rfl
      have := h.owned k
      simp [hk] at this
    rw [ho k hkj]
    exact h.untouched k hk

theorem regate (h : Law acct history offered book) (g : AdmissionGate) :
    Law { acct with admission := g } history offered book :=
  ⟨h.counts, h.owned, h.traced, h.untouched⟩

theorem raise (h : Law acct history offered ((j, ph) ::ₘ book)) {c : Counter}
    (hw : Phase.Raises c ph ph') (hh : ph'.history = ph.history) :
    Law (acct.add c) history offered ((j, ph') ::ₘ book) := by
  refine h.exchange (fun d => ?_) ?_ fun _ _ => rfl
  · rw [PoolAccounting.add_count, hw d]
    omega
  · rw [hh]
    exact h.traced _ (Multiset.mem_cons_self _ _)

/-- The phase changes together with one decrement, which never underflows. -/
theorem lower (h : Law acct history offered ((j, ph) ::ₘ book)) {c : Counter}
    (hw : Phase.Raises c ph' ph) {evs : List JobEvent} (hh : ph'.history = ph.history ++ evs) :
    ∃ b, acct.sub c = some b ∧
      Law b (Function.update history j (history j ++ evs)) offered ((j, ph') ::ₘ book) := by
  have hpos : 0 < acct.count c := by
    have hc := h.counts c
    have hd := hw c
    simp only [Book.sum, total_cons, if_true] at hc hd
    omega
  refine ⟨_, PoolAccounting.sub_of_pos hpos, ?_⟩
  have hsub := PoolAccounting.sub_count (PoolAccounting.sub_of_pos hpos)
  refine h.exchange (fun d => ?_) ?_ fun k hk => Function.update_of_ne hk _ _
  · rw [hsub d, hw d]
    omega
  · rw [Function.update_self, hh, h.traced _ (Multiset.mem_cons_self _ _)]

/-- A callback begins or ends, or the job changes hands: no counter moves. -/
theorem trace (h : Law acct history offered ((j, ph) ::ₘ book)) {evs : List JobEvent}
    (hw : ∀ d, Phase.weight d ph' = Phase.weight d ph) (hh : ph'.history = ph.history ++ evs) :
    Law acct (Function.update history j (history j ++ evs)) offered ((j, ph') ::ₘ book) := by
  refine h.exchange (fun d => by rw [hw d]) ?_ fun k hk => Function.update_of_ne hk _ _
  rw [Function.update_self, hh, h.traced _ (Multiset.mem_cons_self _ _)]

/-- A job is handed to `submit`, which can happen to it only once. -/
theorem offer (h : Law acct history offered book) (hj : offered j = false) :
    Law acct history (Function.update offered j true) ((j, .offered) ::ₘ book) := by
  refine ⟨fun c => ?_, fun k => ?_, fun e he => ?_, fun k hk => ?_⟩
  · have hc := h.counts c
    simp only [Book.sum, total_cons] at hc ⊢
    have hz : Phase.weight c .offered = 0 := by cases c <;> rfl
    omega
  · have hk := h.owned k
    by_cases hkj : k = j
    · subst hkj
      simpa [hj] using hk
    · simpa [hkj] using hk
  · rcases Multiset.mem_cons.mp he with rfl | he
    · exact h.untouched j hj
    · exact h.traced e he
  · by_cases hkj : k = j
    · subst hkj
      simp at hk
    · rw [Function.update_of_ne hkj] at hk
      exact h.untouched k hk

theorem start (queueCapacity : Option ℕ) :
    Law (.new queueCapacity) (fun _ => []) (fun _ => false) 0 := by
  refine ⟨fun c => rfl, fun j => ?_, fun e he => ?_, fun _ _ => rfl⟩
  · simp
  · simp at he

theorem quiet (h : Law acct history offered book) (hs : acct.count .queueSlot = 0)
    (hr : acct.count .running = 0) : ∀ e ∈ book, e.2.outstanding = false := by
  intro e he
  rw [h.counts] at hs hr
  have hs' := total_eq_zero_iff.mp hs e he
  have hr' := total_eq_zero_iff.mp hr e he
  cases ho : e.2.outstanding with
  | false => rfl
  | true =>
    have := Phase.outstanding_counted ho
    omega

theorem finished_of_none (h : Law acct history offered book) (hz : ∀ e ∈ book, e.2.outstanding = false) :
    AllFinished history := by
  intro j ha
  by_contra hu
  have ho := h.owners_eq_one ha hu
  have hn : book.owners j = 0 :=
    total_eq_zero_iff.mpr fun e he => if_neg fun hc => by simp [hz e he] at hc
  omega

/-- No slot and no running job: every accepted job is finished. -/
theorem quiet_finished (h : Law acct history offered book) (hs : acct.count .queueSlot = 0)
    (hr : acct.count .running = 0) : AllFinished history := h.finished_of_none (h.quiet hs hr)

theorem queued_zero (h : Law acct history offered book) (hs : acct.count .queueSlot = 0) :
    acct.count .queued = 0 := by
  rw [h.counts] at hs ⊢
  refine total_eq_zero_iff.mpr fun e he => ?_
  have := total_eq_zero_iff.mp hs e he
  cases hp : e.2 <;> simp [hp, Phase.weight] at this ⊢

/-- Nothing is counted when no job is queued and the actors hold rejected jobs only. -/
theorem idle {queue : List JobId} {finished : List (JobId × Ending)} {held : Book}
    (h : Law acct history offered (Book.stored queue finished + held)) (hq : queue = [])
    (hh : ∀ e ∈ held, ∃ error, e.2 = .rejected error) {r : IdleRead} (hr : r ≠ .inflight) : r.value acct = 0 := by
  have hsum : ∀ c, (∀ e : Ending, Phase.weight c e.phase = 0) → (∀ error, Phase.weight c (.rejected error) = 0) →
      acct.count c = 0 := by
    intro c hend hrej
    refine (h.counts c).trans (total_eq_zero_iff.mpr fun e he => ?_)
    rcases Multiset.mem_add.mp he with he | he
    · simp only [Book.stored, hq, List.map_nil, Multiset.coe_nil, zero_add, Multiset.mem_coe, List.mem_map] at he
      obtain ⟨x, -, rfl⟩ := he
      exact hend x.2
    · obtain ⟨error, hp⟩ := hh e he
      rw [hp]
      exact hrej error
  cases r with
  | inflight => exact absurd rfl hr
  | slots => exact hsum .queueSlot (by rintro ⟨⟩ <;> rfl) fun _ => rfl
  | running => exact hsum .running (by rintro ⟨⟩ <;> rfl) fun _ => rfl
  | cancelling => exact hsum .cancelling (by rintro ⟨⟩ <;> rfl) fun _ => rfl

/-- Only accepted jobs are cancelled. -/
theorem begun_le_submitted (h : Law acct history offered book) : book.begun ≤ acct.count .submitted := by
  rw [h.counts]
  exact total_le_total fun e _ => e.2.cancels_le_submitted

/-- The two counters exceed the begun cancellations by those between their two updates. -/
theorem cancel_counts (h : Law acct history offered book) :
    acct.count .cancelling + acct.count .cancelled =
      book.begun + total (fun e => if e.2 = .settling then 1 else 0) book := by
  rw [h.counts, h.counts, Book.begun, Book.sum, Book.sum, ← total_sum, ← total_sum]
  exact total_congr fun e _ => e.2.cancel_split

theorem accept_of_cancel (h : Law acct history offered book) (hc : .cancelBegin ∈ history j) :
    .acceptEnd ∈ history j := by
  obtain ⟨tail, htail⟩ := (h.exactlyOnce j).accept_first (Or.inr hc)
  rw [← htail]
  simp

theorem quiet_balance (h : Law acct history offered book) (hs : acct.count .queueSlot = 0)
    (hr : acct.count .running = 0) :
    acct.count .submitted = acct.count .completed + acct.count .cancelled := by
  rw [h.counts] at hs hr
  rw [h.counts, h.counts, h.counts]
  simp only [Book.sum, ← total_sum]
  exact total_congr fun e he => Phase.settled_weights (total_eq_zero_iff.mp hs e he)
    (total_eq_zero_iff.mp hr e he)

end Law

/-- What the law means for the counters, read at any moment, when the actors hold `held`:
each one is the number of the jobs whose phase contributes to it, the sums balance while
no actor is between two updates of one transition, and two zeros are enough to know that
every accepted job is finished. -/
structure Conserved (acct : PoolAccounting) (history : JobId → List JobEvent) (offered : JobId → Bool)
    (stored held : Book) : Prop extends Law acct history offered (stored + held) where
  contributors : ∀ c, acct.count c = Multiset.card ((stored + held).filter fun e => Phase.weight c e.2 = 1)
  split : (∀ e ∈ held, e.2.inTransition = false) →
    acct.count .submitted = acct.count .queued + acct.count .running + acct.count .cancelling +
      acct.count .completed + acct.count .cancelled ∧
    acct.count .queueSlot = Multiset.card (held.filter fun e => e.2.provisional = true) +
      acct.count .queued + acct.count .cancelling
  quiet : acct.count .queueSlot = 0 → acct.count .running = 0 → AllFinished history

theorem Law.conserved {acct : PoolAccounting} {history : JobId → List JobEvent} {offered : JobId → Bool}
    {queue : List JobId} {finished : List (JobId × Ending)} {held : Book}
    (h : Law acct history offered (Book.stored queue finished + held)) :
    Conserved acct history offered (Book.stored queue finished) held := by
  have hphase : ∀ e ∈ Book.stored queue finished, _ := fun _ he => Book.stored_phase he
  have hbook : (∀ e ∈ held, e.2.inTransition = false) →
      ∀ e ∈ Book.stored queue finished + held, e.2.inTransition = false := by
    intro ht e he
    rcases Multiset.mem_add.mp he with he | he
    · exact (hphase e he).2.1
    · exact ht e he
  have hprov : total (fun e : JobId × Phase => if e.2.provisional then 1 else 0) (Book.stored queue finished) = 0 :=
    total_eq_zero_iff.mpr fun e he => by simp [(hphase e he).2.2]
  refine ⟨h, fun c => ?_, fun ht => ⟨?_, ?_⟩, h.quiet_finished⟩
  · rw [h.counts c]
    exact total_eq_card fun e => Phase.weight_le_one c e.2
  · simp only [h.counts, Book.sum, ← total_sum]
    exact total_congr fun e he => Phase.submitted_split (hbook ht e he)
  · have hp : Multiset.card (held.filter fun e => e.2.provisional = true) =
        total (fun e => if e.2.provisional then 1 else 0) (Book.stored queue finished + held) := by
      rw [total_add, hprov, Nat.zero_add, total_eq_card fun e => by split <;> decide]
      refine congrArg Multiset.card (Multiset.filter_congr fun e _ => ?_)
      cases e.2.provisional <;> simp
    rw [hp]
    simp only [h.counts, Book.sum, ← total_sum]
    exact total_congr fun e he => Phase.slot_split (hbook ht e he)

end ThreadPools
