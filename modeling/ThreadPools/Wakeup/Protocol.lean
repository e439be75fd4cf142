import ThreadPools.Interleaving.Totals

/-! # Waking idle workers without holding the monitor

Producers publish items outside the monitor and notify only if they saw a worker
marked idle and no wake token covered it. Workers mark themselves idle under the
monitor and look at the items and at the tokens before they park. The protocol
keeps no counters: how many producers are inside the gate, how many workers are
marked or registered and whether the monitor is free are totals over the roles.
-/
namespace ThreadPools.Wakeup
open Interleaving
variable {ι : Type}

/-- Items are admitted, then only drained, then dropped. -/
inductive Mode where
  | admitting | draining | halted
  deriving DecidableEq

def Mode.rank : Mode → ℕ
  | .admitting => 0
  | .draining => 1
  | .halted => 2

structure Board (ι : Type) where
  mode : Mode
  closed : Bool
  items : List ι
  tokens : ℕ
  epoch : ℕ

inductive Place where
  /-- No producer and no worker. -/
  | outside
  /-- A producer inside the gate, before it reserves or after it has published. -/
  | inside
  /-- A producer that has an item to publish. -/
  | reserved
  /-- A worker that will look at the items before it parks or leaves. -/
  | fresh
  /-- A worker that has decided to leave. -/
  | leaving

namespace Place

def within : Place → ℕ
  | .inside | .reserved => 1
  | _ => 0

def works : Place → ℕ
  | .fresh | .leaving => 1
  | _ => 0

def reserves : Place → ℕ
  | .reserved => 1
  | _ => 0

def stays : Place → ℕ
  | .fresh => 1
  | _ => 0

def leaves : Place → ℕ
  | .leaving => 1
  | _ => 0

end Place

inductive Role (ι : Type) where
  | plain (x : Place) (m : Bool)
  /-- The monitor is held and a worker is registered that does not run yet. -/
  | credit (producer : Bool)
  /-- A producer that has seen or started a worker in this monitor section. -/
  | vouched
  | pushed (j : ι)
  | loaded (j : ι) (idle : ℕ)
  | raised (j : ι)
  | marked
  | seen
  | clear
  | parked (epoch : ℕ)
  | drainSeen
  | drainClear
  | retireSeen
  | retireClear
  | retireSure
  | consuming
  | retireConsuming
  | exitSeen

namespace Role

def holds : Role ι → ℕ
  | .plain _ m => m.toNat
  | .credit _ | .vouched | .marked | .seen | .clear | .drainSeen | .drainClear | .retireSeen
  | .retireClear | .retireSure | .consuming | .retireConsuming | .exitSeen => 1
  | _ => 0

def inside : Role ι → ℕ
  | .plain x _ => x.within
  | .vouched | .pushed _ | .loaded _ _ | .raised _ => 1
  | .credit producer => producer.toNat
  | _ => 0

def works : Role ι → ℕ
  | .plain x _ => x.works
  | .credit _ | .marked | .seen | .clear | .parked _ | .drainSeen | .drainClear | .retireSeen
  | .retireClear | .retireSure | .consuming | .retireConsuming | .exitSeen => 1
  | _ => 0

def stays : Role ι → ℕ
  | .plain x _ => x.stays
  | .marked | .seen | .clear | .parked _ | .drainSeen | .drainClear | .retireSeen | .retireClear
  | .consuming | .exitSeen => 1
  | _ => 0

def marks : Role ι → ℕ
  | .marked | .seen | .clear | .parked _ | .drainSeen | .drainClear | .retireSeen | .retireClear
  | .retireSure => 1
  | _ => 0

def reserves : Role ι → ℕ
  | .plain x _ => x.reserves
  | _ => 0

/-- Has published an item and not yet decided whether to raise a token. -/
def pushes : Role ι → ℕ
  | .pushed _ | .loaded _ _ => 1
  | _ => 0

def pushesOf [DecidableEq ι] (j : ι) : Role ι → ℕ
  | .pushed i | .loaded i _ => if i = j then 1 else 0
  | _ => 0

/-- Has raised a token and not yet notified. -/
def raises : Role ι → ℕ
  | .raised _ => 1
  | _ => 0

/-- A worker that will look at the items again without a further notification. -/
def attentive (epoch : ℕ) : Role ι → ℕ
  | .plain x _ => x.stays
  | .marked | .consuming => 1
  | .parked e => if e = epoch then 0 else 1
  | _ => 0

/-- A worker that is parked without a notification, or is about to be. -/
def sleeping (epoch : ℕ) : Role ι → ℕ
  | .clear => 1
  | .parked e => if e = epoch then 1 else 0
  | _ => 0

/-- Cannot occur: parked in the future, or an idle count of zero taken as positive. -/
def absurd (epoch : ℕ) : Role ι → ℕ
  | .parked e => if epoch < e then 1 else 0
  | .loaded _ k => if k = 0 then 1 else 0
  | _ => 0

def drains : Role ι → ℕ
  | .drainSeen | .drainClear | .exitSeen => 1
  | _ => 0

def grows : Role ι → ℕ
  | .credit _ | .vouched => 1
  | _ => 0

def vouches : Role ι → ℕ
  | .vouched => 1
  | _ => 0

def exits : Role ι → ℕ
  | .exitSeen => 1
  | _ => 0

def retires : Role ι → ℕ
  | .retireSeen | .retireClear => 1
  | _ => 0

/-- Has read the tokens as zero on the way to retirement. -/
def quiets : Role ι → ℕ
  | .retireClear | .retireSure | .retireConsuming => 1
  | _ => 0

def sures : Role ι → ℕ
  | .retireSure | .retireConsuming => 1
  | _ => 0

/-- Leaves after it has released the monitor. -/
def strays : Role ι → ℕ
  | .plain x m => x.leaves * (!m).toNat
  | _ => 0

end Role

-- What one role contributes to one total bounds what it contributes to others.
section
variable (R : Multiset (Role ι)) {e e' : ℕ}

theorem exits_le_holds : total Role.exits R ≤ total Role.holds R :=
  total_le_total fun r _ => by cases r <;> simp [Role.exits, Role.holds]

theorem drains_le_holds : total Role.drains R ≤ total Role.holds R :=
  total_le_total fun r _ => by cases r <;> simp [Role.drains, Role.holds]

theorem grows_le_holds : total Role.grows R ≤ total Role.holds R :=
  total_le_total fun r _ => by cases r <;> simp [Role.grows, Role.holds]

theorem vouches_le_grows : total Role.vouches R ≤ total Role.grows R :=
  total_le_total fun r _ => by cases r <;> simp [Role.vouches, Role.grows]

theorem retires_le_marks : total Role.retires R ≤ total Role.marks R :=
  total_le_total fun r _ => by cases r <;> simp [Role.retires, Role.marks]

theorem retires_le_holds : total Role.retires R ≤ total Role.holds R :=
  total_le_total fun r _ => by cases r <;> simp [Role.retires, Role.holds]

theorem quiets_le_holds : total Role.quiets R ≤ total Role.holds R :=
  total_le_total fun r _ => by cases r <;> simp [Role.quiets, Role.holds]

theorem sures_le_quiets : total Role.sures R ≤ total Role.quiets R :=
  total_le_total fun r _ => by cases r <;> simp [Role.sures, Role.quiets]

theorem exits_le_drains : total Role.exits R ≤ total Role.drains R :=
  total_le_total fun r _ => by cases r <;> simp [Role.exits, Role.drains]

theorem exits_le_stays : total Role.exits R ≤ total Role.stays R :=
  total_le_total fun r _ => by cases r <;> simp [Role.exits, Role.stays]

theorem stays_le_works : total Role.stays R ≤ total Role.works R :=
  total_le_total fun r _ => by
    cases r with
    | plain x m => cases x <;> simp [Role.stays, Role.works, Place.stays, Place.works]
    | _ => simp [Role.stays, Role.works]

theorem reserves_le_inside : total Role.reserves R ≤ total Role.inside R :=
  total_le_total fun r _ => by
    cases r with
    | plain x m => cases x <;> simp [Role.reserves, Role.inside, Place.reserves, Place.within]
    | _ => simp [Role.reserves, Role.inside]

theorem pushes_le_inside : total Role.pushes R ≤ total Role.inside R :=
  total_le_total fun r _ => by cases r <;> simp [Role.pushes, Role.inside]

theorem raises_le_inside : total Role.raises R ≤ total Role.inside R :=
  total_le_total fun r _ => by cases r <;> simp [Role.raises, Role.inside]

/-- A registered worker stays unless it holds the monitor or has strayed. -/
theorem works_le : total Role.works R ≤ total Role.stays R + total Role.holds R + total Role.strays R := by
  rw [← total_sum, ← total_sum]
  refine total_le_total fun r _ => ?_
  cases r with
  | plain x m =>
    cases x <;> cases m <;>
      simp [Role.works, Role.stays, Role.holds, Role.strays, Place.works, Place.stays, Place.leaves]
  | _ => simp [Role.works, Role.stays, Role.holds, Role.strays]

/-- An unmarked staying worker is attentive unless it is about to exit. -/
theorem stays_le : total Role.stays R ≤ total Role.marks R + total (Role.attentive e) R + total Role.exits R := by
  rw [← total_sum, ← total_sum]
  refine total_le_total fun r _ => ?_
  cases r <;> simp [Role.stays, Role.marks, Role.attentive, Role.exits]

/-- After a notification a staying worker is attentive unless it holds the monitor. -/
theorem stays_le_notified :
    total Role.stays R ≤ total (Role.attentive (e + 1)) R + total Role.holds R + total (Role.absurd e) R := by
  rw [← total_sum, ← total_sum]
  refine total_le_total fun r _ => ?_
  cases r with
  | parked k =>
    simp only [Role.stays, Role.attentive, Role.holds, Role.absurd]
    split <;> split <;> omega
  | _ => simp [Role.stays, Role.attentive, Role.holds, Role.absurd]

theorem absurd_le (h : e ≤ e') : total (Role.absurd e') R ≤ total (Role.absurd e) R := by
  refine total_le_total fun r _ => ?_
  cases r with
  | parked k =>
    simp only [Role.absurd]
    split <;> split <;> omega
  | _ => simp [Role.absurd]

theorem sleeping_le (h : e ≤ e') :
    total (Role.sleeping e') R ≤ total (Role.sleeping e) R + total (Role.absurd e) R := by
  rw [← total_sum]
  refine total_le_total fun r _ => ?_
  cases r with
  | parked k =>
    simp only [Role.sleeping, Role.absurd]
    split <;> split <;> split <;> omega
  | _ => simp [Role.sleeping, Role.absurd]

theorem sleeping_le_notified :
    total (Role.sleeping (e + 1)) R ≤ total Role.holds R + total (Role.absurd e) R := by
  rw [← total_sum]
  refine total_le_total fun r _ => ?_
  cases r with
  | parked k =>
    simp only [Role.sleeping, Role.holds, Role.absurd]
    split <;> split <;> omega
  | _ => simp [Role.sleeping, Role.holds, Role.absurd]

theorem attentive_le (h : e ≤ e') :
    total (Role.attentive e) R ≤ total (Role.attentive e') R + total (Role.absurd e) R := by
  rw [← total_sum]
  refine total_le_total fun r _ => ?_
  cases r with
  | parked k =>
    simp only [Role.attentive, Role.absurd]
    split <;> split <;> split <;> omega
  | _ => simp [Role.attentive, Role.absurd]

end

/-- What distinguishes the uses of the protocol. A fixed crew has `size` workers
from the start; otherwise workers come and go, and a producer reserves only under
the monitor while a worker is registered. The two guards restrict the runs. -/
structure Rules where
  fixed : Prop
  size : ℕ
  exitGuard : Prop
  parkGuard : Prop

/-- One step of the actor in role `r` while the others stand in `rest`: the new
board, the new role of the actor and the roles of created actors. -/
inductive Step (U : Rules) (b : Board ι) (rest : Multiset (Role ι)) :
    Role ι → Board ι → Role ι → List (Role ι) → Prop where
  | still {r : Role ι} {e : ℕ} (he : b.epoch ≤ e) : Step U b rest r { b with epoch := e } r []
  | acquire {x : Place} (hf : total Role.holds rest = 0) : Step U b rest (.plain x false) b (.plain x true) []
  | release {x : Place} {e : ℕ} (he : b.epoch ≤ e) (hx : x = .leaving → U.fixed) :
      Step U b rest (.plain x true) { b with epoch := e } (.plain x false) []
  | enter (hc : b.closed = false) : Step U b rest (.plain .outside false) b (.plain .inside false) []
  | leave : Step U b rest (.plain .inside false) b (.plain .outside false) []
  | close {m : Bool} : Step U b rest (.plain .outside m) { b with closed := true } (.plain .outside m) []
  | setMode {m : Bool} {l : Mode} {e : ℕ} (he : b.epoch ≤ e) (hf : total Role.holds rest = 0)
      (hc : b.closed = true) (hl : b.mode.rank ≤ l.rank) :
      Step U b rest (.plain .outside false) { b with mode := l, epoch := e } (.plain .outside m) []
  | take {x : Place} {m : Bool} {items : List ι} (hi : ∀ j ∈ items, j ∈ b.items) :
      Step U b rest (.plain x m) { b with items := items } (.plain x m) []
  | growEntered (hm : b.mode = .admitting) (hu : ¬ U.fixed) :
      Step U b rest (.plain .inside true) b (.credit true) []
  | growVouched (hm : b.mode = .admitting) (hu : ¬ U.fixed) : Step U b rest .vouched b (.credit true) []
  | growSpare (hm : b.mode = .admitting) (hu : ¬ U.fixed) (hf : total Role.holds rest = 0) :
      Step U b rest (.plain .outside false) b (.credit false) []
  | spawn : Step U b rest (.credit true) b .vouched [.plain .fresh false]
  | spawnSpare : Step U b rest (.credit false) b (.plain .outside true) [.plain .fresh false]
  | spawnFail : Step U b rest (.credit true) b (.plain .inside true) []
  | spawnSpareFail : Step U b rest (.credit false) b (.plain .outside true) []
  | vouch (hm : b.mode = .admitting) (hw : 0 < total Role.works rest) :
      Step U b rest (.plain .inside true) b .vouched []
  | unvouch : Step U b rest .vouched b (.plain .inside true) []
  | reserve (hu : ¬ U.fixed) : Step U b rest .vouched b (.plain .reserved true) []
  | reserveFree (hu : U.fixed) : Step U b rest (.plain .inside false) b (.plain .reserved false) []
  | rollback : Step U b rest (.plain .reserved false) b (.plain .inside false) []
  | push {j : ι} : Step U b rest (.plain .reserved false) { b with items := b.items ++ [j] } (.pushed j) []
  | loadNone {j : ι} (hk : total Role.marks rest = 0) : Step U b rest (.pushed j) b (.plain .inside false) []
  | load {j : ι} {k : ℕ} (hk : total Role.marks rest = k) (hpos : 0 < k) :
      Step U b rest (.pushed j) b (.loaded j k) []
  | raise {j : ι} {k : ℕ} (ht : b.tokens < k) :
      Step U b rest (.loaded j k) { b with tokens := b.tokens + 1 } (.raised j) []
  | covered {j : ι} {k : ℕ} (ht : k ≤ b.tokens) : Step U b rest (.loaded j k) b (.plain .inside false) []
  | broadcast {j : ι} (hf : total Role.holds rest = 0) :
      Step U b rest (.raised j) { b with epoch := b.epoch + 1 } (.plain .inside false) []
  | mark : Step U b rest (.plain .fresh true) b .marked []
  | look (hi : b.items = []) : Step U b rest .marked b .seen []
  | lookTokens (ht : b.tokens = 0) : Step U b rest .seen b .clear []
  | park : Step U b rest .clear b (.parked b.epoch) []
  | wake {e : ℕ} (hf : total Role.holds rest = 0) : Step U b rest (.parked e) b .marked []
  | drainLook (hi : b.items = []) (hm : b.mode = .draining) : Step U b rest .marked b .drainSeen []
  | drainBusy : Step U b rest .drainSeen b .drainClear []
  | drainPark (hg : U.parkGuard → b.tokens = 0 ∨ 0 < total Role.raises rest) :
      Step U b rest .drainClear b (.parked b.epoch) []
  | retireLook (hi : b.items = []) : Step U b rest .marked b .retireSeen []
  | retireTokens (ht : b.tokens = 0) : Step U b rest .retireSeen b .retireClear []
  | retireCrowd (ht : b.tokens = 0) (hw : 0 < total Role.works rest) (hu : ¬ U.fixed) :
      Step U b rest .retireSeen b .retireSure []
  | retireAlone (hz : total Role.inside rest = 0) (hu : ¬ U.fixed) :
      Step U b rest .retireClear b .retireSure []
  | back : Step U b rest .seen b .marked []
  | drainBack : Step U b rest .drainSeen b .marked []
  | retireBack : Step U b rest .retireSeen b .marked []
  | retireStay : Step U b rest .retireClear b .marked []
  | unmark : Step U b rest .marked b .consuming []
  | unmarkRetire : Step U b rest .retireSure b .retireConsuming []
  | consume : Step U b rest .consuming { b with tokens := b.tokens - 1 } (.plain .fresh true) []
  | consumeRetire :
      Step U b rest .retireConsuming { b with tokens := b.tokens - 1 } (.plain .leaving true) []
  | spare (hi : b.items = []) (hw : 0 < total Role.works rest) (hu : ¬ U.fixed) :
      Step U b rest (.plain .fresh true) b (.plain .leaving true) []
  | exitLook (hi : b.items = []) (hm : b.mode = .draining) : Step U b rest (.plain .fresh true) b .exitSeen []
  | exitBusy : Step U b rest .exitSeen b (.plain .fresh true) []
  | exit {m : Bool} (hz : total Role.inside rest = 0) (hm : m = false → U.fixed)
      (hg : U.exitGuard → total Role.stays rest = 0 → b.items = []) :
      Step U b rest .exitSeen b (.plain .leaving m) []
  | halt {m m' : Bool} (hm : b.mode = .halted) (hf : m = false → total Role.holds rest = 0)
      (hm' : m' = false → U.fixed) : Step U b rest (.plain .fresh m) b (.plain .leaving m') []
  | unregister {m : Bool} {e : ℕ} (he : b.epoch ≤ e) (hf : m = false → total Role.holds rest = 0) :
      Step U b rest (.plain .leaving m) { b with epoch := e } (.plain .outside m) []

end ThreadPools.Wakeup
