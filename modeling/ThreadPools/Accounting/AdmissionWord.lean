import ThreadPools.Accounting.PoolAccounting
import ThreadPools.Interleaving.PackedWord
import ThreadPools.Interleaving.Machine
import ThreadPools.Interleaving.Totals

/-! # The packed admission word

`AdmissionGate` of the source keeps its closed flag and its number of entrants in one
atomic word of `n + 1` bits. The threads of this machine execute the single atomic
accesses of `try_enter`, `close` and `leave`; a thread leaves once for every time it
entered, and a call made inside another one counts as a thread of its own. Below the
overflow bound every access is a step of the ideal gate or does not change it.
-/
namespace ThreadPools.AdmissionWord
open Interleaving PackedWord

/-- What a thread decides, and whether a weak exchange fails spuriously. -/
inductive Choice where
  | enter | leave | close | go | spurious
  deriving DecidableEq

/-- `inside` tells a closing thread whether it has entered. -/
inductive Pc (n : ℕ) where
  | outside
  | load
  | check (current : BitVec (n + 1))
  | exchange (current : BitVec (n + 1))
  | entered
  | leaving
  | closing (inside : Bool)
  | overflow | underflow
  deriving DecidableEq

inductive GateEvent where
  | entered | refused | closed | left (last : Bool)
  deriving DecidableEq

/-- The second field is a history that no step reads. -/
structure Shared (n : ℕ) where
  state : BitVec (n + 1)
  events : List GateEvent

namespace Shared
variable {n : ℕ}

def new : Shared n := ⟨0#(n + 1), []⟩

def record (sh : Shared n) (e : GateEvent) : Shared n := { sh with events := sh.events ++ [e] }

def store (sh : Shared n) (x : BitVec (n + 1)) : Shared n := { sh with state := x }

def gate (sh : Shared n) : AdmissionGate := ⟨flag sh.state, count sh.state⟩

end Shared

variable {n : ℕ}

/-- The loop of `try_enter` from its first load on. -/
def tryEnterStep (sh : Shared n) : Pc n → Choice → Option (Shared n × Pc n)
  | .load, .go => some (sh, .check sh.state)
  | .check current, .go =>
    if flag current then some (sh.record .refused, .outside)
    else if count current < (countMask n).toNat then some (sh, .exchange current)
    else some (sh, .overflow)
  | .exchange current, .go =>
    if sh.state = current then some ((sh.store (current + 1#(n + 1))).record .entered, .entered)
    else some (sh, .check sh.state)
  | .exchange _, .spurious => some (sh, .check sh.state)
  | _, _ => none

/-- The single accesses of `close` and `leave`. -/
def accessStep (sh : Shared n) : Pc n → Option (Shared n × Pc n)
  | .closing inside =>
    some ((sh.store (sh.state ||| flagBit n)).record .closed, if inside then .entered else .outside)
  | .leaving =>
    let left := sh.store (sh.state - 1#(n + 1))
    if 0 < count sh.state then some (left.record (.left (count sh.state == 1)), .outside)
    else some (left, .underflow)
  | _ => none

def step (sh : Shared n) (p : Pc n) (c : Choice) : Option (Shared n × Pc n) :=
  match p, c with
  | .outside, .enter => some (sh, .load)
  | .outside, .close => some (sh, .closing false)
  | .entered, .leave => some (sh, .leaving)
  | .entered, .close => some (sh, .closing true)
  | .closing inside, .go => accessStep sh (.closing inside)
  | .leaving, .go => accessStep sh .leaving
  | p, c => tryEnterStep sh p c

def machine (n : ℕ) : Machine (Shared n) (Pc n) Choice Empty where
  step sh p c := (step sh p c).map fun r => (r.1, r.2, [])
  call _ op := op.elim

def init (n threads : ℕ) : Interleaving.State (Shared n) (Pc n) := ⟨.new, List.replicate threads .outside⟩

def Pc.inside : Pc n → Bool
  | .entered | .leaving | .closing true => true
  | _ => false

/-! ## Histories of the ideal gate -/

/-- The ideal gate takes an event, or `none` where it does otherwise. -/
def replay (g : AdmissionGate) : GateEvent → Option AdmissionGate
  | .entered => g.tryEnter
  | .refused => if g.tryEnter = none then some g else none
  | .closed => some g.close
  | .left last => g.leave.bind fun r => if r.2 = last then some r.1 else none

def replayAll (g : AdmissionGate) (es : List GateEvent) : Option AdmissionGate := es.foldlM replay g

def entrants (es : List GateEvent) : ℕ := es.count .entered
def leavers (es : List GateEvent) : ℕ := es.count (.left true) + es.count (.left false)

variable {g g' : AdmissionGate} {e : GateEvent} {es pre post : List GateEvent}

theorem replayAll_cons : replayAll g (e :: es) = (replay g e).bind fun k => replayAll k es := rfl

theorem replayAll_append : replayAll g (pre ++ post) = (replayAll g pre).bind fun k => replayAll k post :=
  List.foldlM_append

theorem replay_left {last : Bool} (h : replay g (.left last) = some g') :
    g'.closed = g.closed ∧ g.inflight = g'.inflight + 1 ∧ (last = true ↔ g'.inflight = 0) := by
  obtain ⟨r, hr, h⟩ := Option.bind_eq_some_iff.mp h
  split at h
  · rename_i hl
    cases h
    unfold AdmissionGate.leave at hr
    split at hr <;> cases hr
    refine ⟨rfl, ?_, ?_⟩
    · simp only
      omega
    · subst hl
      simp only [beq_iff_eq]
      omega
  · cases h

theorem replay_entered (h : replay g .entered = some g') :
    g.closed = false ∧ g' = { g with inflight := g.inflight + 1 } := by
  have hg : g.tryEnter = some g' := h
  unfold AdmissionGate.tryEnter at hg
  split at hg <;> cases hg
  rename_i hc
  exact ⟨Bool.eq_false_iff.mpr hc, rfl⟩

theorem replay_refused (h : replay g .refused = some g') : g' = g := by
  simp only [replay] at h
  split at h <;> cases h
  rfl

/-- The two parts of the gate count its history. -/
theorem replayAll_counts (h : replayAll g es = some g') :
    g'.inflight + leavers es = g.inflight + entrants es ∧
      (g'.closed = true ↔ g.closed = true ∨ .closed ∈ es) := by
  induction es generalizing g with
  | nil =>
    cases h
    exact ⟨rfl, by simp⟩
  | cons e es ih =>
    rw [replayAll_cons] at h
    obtain ⟨k, hk, hrest⟩ := Option.bind_eq_some_iff.mp h
    obtain ⟨hi, hc⟩ := ih hrest
    cases e with
    | entered =>
      obtain ⟨-, rfl⟩ := replay_entered hk
      simp only [entrants, leavers] at hi ⊢
      exact ⟨by simp; omega, by simpa using hc⟩
    | refused =>
      obtain rfl := replay_refused hk
      exact ⟨by simpa [entrants, leavers] using hi, by simpa using hc⟩
    | closed =>
      obtain rfl : g.close = k := Option.some.inj hk
      exact ⟨by simpa [entrants, leavers, AdmissionGate.close] using hi, by simpa [AdmissionGate.close] using hc⟩
    | left last =>
      obtain ⟨hcl, hin, -⟩ := replay_left hk
      refine ⟨?_, by simpa [hcl] using hc⟩
      simp only [entrants, leavers] at hi ⊢
      cases last <;> simp <;> omega

/-- Behind a closed gate nobody enters, and who leaves last is told so. -/
theorem replayAll_closed (hc : g.closed = true) (h : replayAll g es = some g') :
    .entered ∉ es ∧ g'.inflight ≤ g.inflight ∧
      es.count (.left true) = if 0 < g.inflight ∧ g'.inflight = 0 then 1 else 0 := by
  induction es generalizing g with
  | nil =>
    cases h
    refine ⟨by simp, Nat.le_refl _, ?_⟩
    rw [if_neg (by omega), List.count_nil]
  | cons e es ih =>
    rw [replayAll_cons] at h
    obtain ⟨k, hk, hrest⟩ := Option.bind_eq_some_iff.mp h
    cases e with
    | entered =>
      obtain ⟨hopen, -⟩ := replay_entered hk
      exact absurd (hopen.symm.trans hc) Bool.false_ne_true
    | refused =>
      obtain rfl := replay_refused hk
      simpa using ih hc hrest
    | closed =>
      obtain rfl : g.close = k := Option.some.inj hk
      obtain ⟨hne, hle, hcount⟩ := ih rfl hrest
      refine ⟨by simpa using hne, hle, ?_⟩
      rw [List.count_cons_of_ne (by decide)]
      exact hcount
    | left last =>
      obtain ⟨hcl, hin, hlast⟩ := replay_left hk
      obtain ⟨hne, hle, hcount⟩ := ih (hcl.trans hc) hrest
      refine ⟨by simpa using hne, by omega, ?_⟩
      cases last with
      | true =>
        have hz := hlast.mp rfl
        rw [List.count_cons_self, hcount, if_neg (by omega), if_pos (by omega)]
      | false =>
        have hz : k.inflight ≠ 0 := fun hz => by simpa using hlast.mpr hz
        rw [List.count_cons_of_ne (by decide), hcount]
        exact if_congr (by omega) rfl rfl

/-! ## The word along a run -/

variable {sh sh' : Shared n} {p p' : Pc n} {c : Choice} {threads : ℕ} {rest : Multiset (Pc n)}

/-- The access took the gate nowhere, or where the ideal gate goes at a recorded event. -/
def Ideal (sh sh' : Shared n) : Prop :=
  sh' = sh ∨ ∃ e, sh'.events = sh.events ++ [e] ∧ replay sh.gate e = some sh'.gate

theorem Ideal.closed (h : Ideal sh sh') (hc : flag sh.state = true) : flag sh'.state = true := by
  rcases h with rfl | ⟨e, -, he⟩
  · exact hc
  · have hmono : ∀ g g' : AdmissionGate, replay g e = some g' → g.closed = true → g'.closed = true := by
      intro g g' hr hg
      have hcounts : replayAll g [e] = some g' := by rw [replayAll_cons, hr]; rfl
      exact (replayAll_counts hcounts).2.mpr (.inl hg)
    exact hmono _ _ he hc

theorem Ideal.replayed (h : Ideal sh sh') (hr : replayAll .new sh.events = some sh.gate) :
    replayAll .new sh'.events = some sh'.gate := by
  rcases h with rfl | ⟨e, hev, he⟩
  · exact hr
  · rw [hev, replayAll_append, hr, Option.bind_some, replayAll_cons, he]
    rfl

/-- What a thread knows of the word, however old the value it has read. -/
def Pc.Knows (threads : ℕ) (sh : Shared n) : Pc n → Prop
  | .check current => count current ≤ threads ∧ (flag current = true → flag sh.state = true)
  | .exchange current => flag current = false ∧ count current < (countMask n).toNat
  | .overflow | .underflow => False
  | _ => True

theorem Pc.Knows.frame (h : p.Knows threads sh) (hi : Ideal sh sh') : p.Knows threads sh' := by
  cases p with
  | check current => exact ⟨h.1, fun hc => hi.closed (h.2 hc)⟩
  | _ => exact h

structure Inv (threads : ℕ) (sh : Shared n) (ps : Multiset (Pc n)) : Prop where
  crowd : Multiset.card ps = threads
  counted : count sh.state = total (fun p => p.inside.toNat) ps
  known : ∀ p ∈ ps, p.Knows threads sh
  replayed : replayAll .new sh.events = some sh.gate

theorem Inv.count_le {ps : Multiset (Pc n)} (h : Inv threads sh ps) : count sh.state ≤ threads := by
  have hle : total (fun p : Pc n => p.inside.toNat) ps ≤ total (fun _ => 1) ps :=
    total_le_total fun p _ => Bool.toNat_le _
  have hcard : total (fun _ : Pc n => 1) ps = Multiset.card ps := by simp [total]
  have hcount := h.counted
  have hcrowd := h.crowd
  omega

structure Access (threads : ℕ) (sh sh' : Shared n) (p p' : Pc n) : Prop where
  ideal : Ideal sh sh'
  counted : count sh'.state + p.inside.toNat = count sh.state + p'.inside.toNat
  known : p'.Knows threads sh'

theorem Access.read (hin : p'.inside = p.inside) (hk : p'.Knows threads sh) : Access threads sh sh p p' :=
  ⟨.inl rfl, by rw [hin], hk⟩

theorem tryEnter_access (hlt : threads < 2 ^ n - 1) (hle : count sh.state ≤ threads)
    (hk : p.Knows threads sh) (h : tryEnterStep sh p c = some (sh', p')) : Access threads sh sh' p p' := by
  have hmask := toNat_countMask (n := n)
  cases p with
  | load =>
    cases c <;> cases h
    exact .read rfl ⟨hle, id⟩
  | check current =>
    obtain ⟨hcur, hflag⟩ := hk
    cases c <;> simp only [tryEnterStep] at h <;> try cases h
    split at h
    · rename_i hc
      cases h
      have hgate : sh.gate.tryEnter = none := if_pos (hflag hc)
      exact ⟨.inr ⟨.refused, rfl, if_pos hgate⟩, rfl, trivial⟩
    · rename_i hopen
      rw [if_pos (by omega)] at h
      cases h
      exact .read rfl ⟨Bool.eq_false_iff.mpr hopen, by omega⟩
  | exchange current =>
    obtain ⟨hflag, hroom⟩ := hk
    cases c <;> simp only [tryEnterStep] at h <;> try cases h
    · split at h
      · rename_i heq
        cases h
        subst heq
        -- the exchange is the increment of an open word that has room for one more
        obtain ⟨hf, hn⟩ := add_one sh.state (by omega)
        refine ⟨.inr ⟨.entered, rfl, ?_⟩, hn.symm ▸ rfl, trivial⟩
        have hgate : sh.gate.tryEnter = some { sh.gate with inflight := sh.gate.inflight + 1 } :=
          if_neg (Bool.eq_false_iff.mp hflag)
        refine hgate.trans (congrArg some ?_)
        simp only [Shared.gate, Shared.record, Shared.store, hf, hn]
      · cases h
        exact .read rfl ⟨hle, id⟩
    · exact .read rfl ⟨hle, id⟩
  | _ => cases c <;> cases h

theorem access (hin : p.inside = true → 0 < count sh.state) (h : accessStep sh p = some (sh', p')) :
    Access threads sh sh' p p' := by
  cases p with
  | closing inside =>
    cases h
    obtain ⟨hf, hn⟩ := or_flag sh.state
    refine ⟨.inr ⟨.closed, rfl, ?_⟩, ?_, ?_⟩
    · simp only [replay, AdmissionGate.close, Shared.gate, Shared.record, Shared.store, hf, hn]
    · cases inside <;> simp [Shared.record, Shared.store, hn, Pc.inside]
    · cases inside <;> trivial
  | leaving =>
    have hpos := hin rfl
    simp only [accessStep] at h
    rw [if_pos hpos] at h
    cases h
    obtain ⟨hf, hn⟩ := sub_one sh.state hpos
    refine ⟨.inr ⟨_, rfl, ?_⟩, ?_, trivial⟩
    · have hgate : sh.gate.leave = some ({ sh.gate with inflight := sh.gate.inflight - 1 }, count sh.state == 1) :=
        if_pos hpos
      have hn' : count (sh.state - 1#(n + 1)) = count sh.state - 1 := by omega
      simp only [replay]
      rw [hgate, Option.bind_some, if_pos rfl]
      simp only [Shared.gate, Shared.record, Shared.store, hf, hn']
    · simp [Shared.record, Shared.store, Pc.inside, hn]
  | _ => cases h

/-- Every step of a thread is an access of the ideal gate. -/
theorem step_access (hlt : threads < 2 ^ n - 1) (hle : count sh.state ≤ threads) (hk : p.Knows threads sh)
    (hin : p.inside = true → 0 < count sh.state) (h : step sh p c = some (sh', p')) :
    Access threads sh sh' p p' := by
  unfold step at h
  split at h
  · cases h
    exact .read rfl trivial
  · cases h
    exact .read rfl trivial
  · cases h
    exact .read rfl trivial
  · cases h
    exact .read rfl trivial
  · exact access hin h
  · exact access hin h
  · exact tryEnter_access hlt hle hk h

theorem Inv.step {new : List (Pc n)} (hlt : threads < 2 ^ n - 1) (hi : Inv threads sh (p ::ₘ rest))
    (h : (machine n).step sh p c = some (sh', p', new)) : Ideal sh sh' ∧ Inv threads sh' (p' ::ₘ (↑new + rest)) := by
  obtain ⟨⟨sh₁, p₁⟩, hstep, heq⟩ := Option.map_eq_some_iff.mp h
  cases heq
  have hsum := hi.counted
  rw [total_cons] at hsum
  have hin : p.inside = true → 0 < count sh.state := by
    intro hp
    rw [hsum, hp]
    exact Nat.lt_add_right _ Nat.one_pos
  obtain ⟨hideal, hcount, hknown⟩ := step_access hlt hi.count_le (hi.known p (Multiset.mem_cons_self p rest)) hin hstep
  refine ⟨hideal, ?_, ?_, ?_, hideal.replayed hi.replayed⟩
  · have hcrowd := hi.crowd
    simpa using hcrowd
  · simp only [Multiset.coe_nil, zero_add, total_cons]
    omega
  · intro q hq
    rw [Multiset.coe_nil, zero_add] at hq
    rcases Multiset.mem_cons.mp hq with rfl | hq
    · exact hknown
    · exact (hi.known q (Multiset.mem_cons_of_mem hq)).frame hideal

theorem Inv.start : Inv (n := n) threads (init n threads).shared (init n threads).actors := by
  have hflag := parts (x := 0#(n + 1)) (b := false) (k := 0) (by simp) (Nat.two_pow_pos n)
  refine ⟨?_, ?_, ?_, ?_⟩
  · simp [init]
  · refine hflag.2.trans (Eq.symm (total_eq_zero_iff.mpr ?_))
    intro p hp
    obtain rfl := List.eq_of_mem_replicate (Multiset.mem_coe.mp hp)
    rfl
  · intro p hp
    obtain rfl := List.eq_of_mem_replicate (Multiset.mem_coe.mp hp)
    trivial
  · have hgate : (init n threads).shared.gate = .new := by
      simp only [init, Shared.gate, Shared.new, hflag.1, hflag.2, AdmissionGate.new]
    rw [hgate]
    rfl

theorem Inv.of_run (hlt : threads < 2 ^ n - 1) {s : Interleaving.State (Shared n) (Pc n)}
    (h : (machine n).Run Machine.free (init n threads) s) : Inv threads s.shared s.actors := by
  refine h.invariant ?_ ?_ Inv.start
  · intro sh p rest c sh' p' new hi _ hs
    exact (hi.step hlt hs).2
  · intro sh ps op
    exact op.elim

/-- What the gate promises of its word: it counts and remembers as an ideal gate does,
no access carries or borrows, and the last one to leave is told so. -/
structure IsGate (s : Interleaving.State (Shared n) (Pc n)) : Prop where
  counts : count s.shared.state = total (fun p : Pc n => p.inside.toNat) s.actors
  balance : count s.shared.state + leavers s.shared.events = entrants s.shared.events
  closed : flag s.shared.state = true ↔ .closed ∈ s.shared.events
  next : ∀ t, (machine n).Follows Machine.free s t → Ideal s.shared t.shared
  sound : .overflow ∉ s.actors ∧ .underflow ∉ s.actors
  shut : ∀ pre post, s.shared.events = pre ++ GateEvent.closed :: post → .entered ∉ post
  last : ∀ pre post b, s.shared.events = pre ++ GateEvent.left b :: post → (b = true ↔ entrants pre = leavers pre + 1)
  once : ∀ pre post, s.shared.events = pre ++ GateEvent.closed :: post →
    post.count (.left true) = if leavers pre < entrants pre ∧ count s.shared.state = 0 then 1 else 0

theorem replayed_shut (h : replayAll .new (pre ++ GateEvent.closed :: post) = some g) :
    .entered ∉ post ∧
      post.count (.left true) = if leavers pre < entrants pre ∧ g.inflight = 0 then 1 else 0 := by
  rw [replayAll_append] at h
  obtain ⟨k, hk, hpost⟩ := Option.bind_eq_some_iff.mp h
  obtain ⟨hcount, -⟩ := replayAll_counts hk
  obtain ⟨hne, -, honce⟩ := replayAll_closed (g := k.close) rfl hpost
  refine ⟨hne, honce.trans (if_congr ?_ rfl rfl)⟩
  have hnew : AdmissionGate.new.inflight = 0 := rfl
  have hclose : k.close.inflight = k.inflight := rfl
  omega

theorem replayed_last {b : Bool} (h : replayAll .new (pre ++ GateEvent.left b :: post) = some g) :
    b = true ↔ entrants pre = leavers pre + 1 := by
  rw [replayAll_append] at h
  obtain ⟨k, hk, hpost⟩ := Option.bind_eq_some_iff.mp h
  rw [replayAll_cons] at hpost
  obtain ⟨k', hleft, -⟩ := Option.bind_eq_some_iff.mp hpost
  obtain ⟨hcount, -⟩ := replayAll_counts hk
  obtain ⟨-, hin, hlast⟩ := replay_left hleft
  have hnew : AdmissionGate.new.inflight = 0 := rfl
  exact hlast.trans (by omega)

/-- With fewer threads than the counter can hold, the word is an ideal gate in every
state of every run. -/
theorem word_is_gate {s : Interleaving.State (Shared n) (Pc n)} (hlt : threads < 2 ^ n - 1)
    (h : (machine n).Run Machine.free (init n threads) s) : IsGate s := by
  have hi := Inv.of_run hlt h
  obtain ⟨hcount, hclosed⟩ := replayAll_counts hi.replayed
  refine ⟨hi.counted, ?_, ?_, ?_, ⟨?_, ?_⟩, ?_, ?_, ?_⟩
  · exact hcount.trans (Nat.zero_add _)
  · exact hclosed.trans (or_iff_right Bool.false_ne_true)
  · intro t ht
    cases ht with
    | @act _ _ p _ hp hs _ =>
      obtain ⟨rest, hrest, -⟩ := Machine.coe_set_append p [] hp
      rw [hrest] at hi
      exact (hi.step hlt hs).1
    | @call op _ _ => exact op.elim
  · intro hp
    exact hi.known _ (Multiset.mem_coe.mpr hp)
  · intro hp
    exact hi.known _ (Multiset.mem_coe.mpr hp)
  · intro pre post he
    exact (replayed_shut (he ▸ hi.replayed)).1
  · intro pre post b he
    exact replayed_last (he ▸ hi.replayed)
  · intro pre post he
    exact (replayed_shut (he ▸ hi.replayed)).2

def race : List (Move Choice Empty) :=
  [.act 0 .enter, .act 1 .enter, .act 0 .go, .act 1 .go, .act 0 .go, .act 1 .go, .act 0 .go, .act 1 .go,
    .act 1 .go, .act 1 .spurious, .act 1 .go, .act 1 .go, .act 1 .close, .act 1 .go, .act 0 .leave, .act 0 .go,
    .act 1 .leave, .act 1 .go]

theorem word_is_gate_race : ∃ s, (machine 2).Run Machine.free (init 2 2) s ∧
    s.shared.events = [.entered, .entered, .closed, .left false, .left true] ∧ IsGate s := by
  have hexec : ((machine 2).exec Machine.free (init 2 2) race).map (fun s => s.shared.events) =
      some [.entered, .entered, .closed, .left false, .left true] := by decide
  obtain ⟨s, hrun, hs⟩ := (machine 2).exec_reaches hexec
  exact ⟨s, hrun, hs, word_is_gate (by decide) hrun⟩

end ThreadPools.AdmissionWord
