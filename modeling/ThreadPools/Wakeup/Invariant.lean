import ThreadPools.Wakeup.Protocol

/-! # The invariant of the wake-up protocol -/
namespace ThreadPools.Wakeup
open Interleaving
variable {ι : Type}

/-- Nothing is published or about to be; a fixed crew also admits no producer. -/
def Calm (U : Rules) (b : Board ι) (R : Multiset (Role ι)) : Prop :=
  b.items.length = 0 ∧ total Role.reserves R = 0 ∧
    (U.fixed → b.closed = true ∧ total Role.inside R = 0)

/-- A calm board stays calm unless a producer that has seen a worker reserves. -/
theorem Calm.step {U : Rules} {b b' : Board ι} {rest : Multiset (Role ι)} {r r' : Role ι}
    {new : List (Role ι)} (hc : Calm U b (r ::ₘ rest)) (h : Step U b rest r b' r' new)
    (hv : r = .vouched → r' ≠ .plain .reserved true) : Calm U b' (r' ::ₘ (↑new + rest)) := by
  obtain ⟨hlen, hres, hfix⟩ := hc
  cases h with
  | enter hopen =>
    refine ⟨hlen, by simpa [Role.reserves, Place.reserves] using hres, fun hu => ?_⟩
    exact absurd (hfix hu).1 (by simp [hopen])
  | close =>
    refine ⟨hlen, by simpa using hres, fun hu => ⟨rfl, by simpa using (hfix hu).2⟩⟩
  | reserveFree hu =>
    have hin := (hfix hu).2
    simp only [total_cons, Role.inside, Place.within] at hin
    omega
  | reserve => exact absurd rfl (hv rfl)
  | push =>
    simp only [total_cons, Role.reserves, Place.reserves] at hres
    omega
  | take hi =>
    rename_i items
    have hz : items.length = 0 := by
      rw [List.length_eq_zero_iff]
      refine List.eq_nil_iff_forall_not_mem.mpr fun j hj => ?_
      have := List.length_pos_of_mem (hi j hj)
      omega
    exact ⟨hz, by simpa using hres, fun hu => ⟨(hfix hu).1, by simpa using (hfix hu).2⟩⟩
  | _ =>
    refine ⟨hlen, ?_, fun hu => ⟨(hfix hu).1, ?_⟩⟩
    · simp only [total_cons, total_add, total_zero, total_singleton, Multiset.coe_nil,
        Multiset.coe_singleton, Role.reserves, Place.reserves] at hres ⊢
      omega
    · have hin := (hfix hu).2
      simp only [total_cons, total_add, total_zero, total_singleton, Multiset.coe_nil,
        Multiset.coe_singleton, Role.inside, Place.within, Bool.toNat_true, Bool.toNat_false] at hin ⊢
      omega

theorem Step.rank_le {U : Rules} {b b' : Board ι} {rest : Multiset (Role ι)} {r r' : Role ι}
    {new : List (Role ι)} (h : Step U b rest r b' r' new) : b.mode.rank ≤ b'.mode.rank := by
  cases h with
  | setMode _ _ _ hl => exact hl
  | _ => exact le_refl _

variable [DecidableEq ι]

/-- Whoever looks at the items next needs no notification, or one is owed. -/
def Covered (b : Board ι) (R : Multiset (Role ι)) : Prop :=
  0 < total (Role.attentive b.epoch) R ∨ 0 < b.tokens ∨ 0 < total Role.raises R ∨
    b.mode.rank = 1 ∧ total Role.stays R = total Role.exits R

structure Inv (U : Rules) (b : Board ι) (R : Multiset (Role ι)) : Prop where
  lock : total Role.holds R ≤ 1
  gate : 0 < b.mode.rank → b.closed = true
  sane : total (Role.absurd b.epoch) R = 0
  drain : 0 < total Role.drains R → b.mode.rank = 1
  grow : 0 < total Role.grows R → b.mode.rank = 0
  vouch : 0 < total Role.vouches R → 0 < total Role.works R
  tidy : ¬ U.fixed → total Role.strays R = 0
  /-- A retiring worker is still marked, so a publication raises a token. -/
  retire : 0 < total Role.retires R → 0 < b.items.length → 0 < b.tokens ∨ 0 < total Role.pushes R
  /-- Since it read no token, whoever raised one waits for the monitor. -/
  quiet : 0 < total Role.quiets R → 0 < b.tokens → 0 < total Role.raises R
  sure : 0 < total Role.sures R → 0 < total Role.stays R ∨ Calm U b R
  staffed : b.mode.rank = 0 ∨ b.mode.rank = 1 ∧ (U.exitGuard ∨ U.fixed ∧ 2 ≤ U.size) →
    0 < total Role.stays R ∨ Calm U b R
  crew : U.fixed → b.mode.rank ≤ 1 → total Role.stays R < U.size →
    b.closed = true ∧ total Role.inside R = 0 ∧ (0 < total Role.exits R → b.items.length = 0)
  token : b.mode.rank = 0 ∨ U.parkGuard → 0 < total (Role.sleeping b.epoch) R → 0 < b.tokens →
    0 < total Role.raises R
  woken : b.mode.rank ≤ 1 → ∀ j ∈ b.items, 0 < total (Role.pushesOf j) R ∨ Covered b R

namespace Inv
variable {U : Rules} {b b' : Board ι} {rest : Multiset (Role ι)} {r r' : Role ι} {new : List (Role ι)}

theorem lock_step (inv : Inv U b (r ::ₘ rest)) (h : Step U b rest r b' r' new) :
    total Role.holds (r' ::ₘ (↑new + rest)) ≤ 1 := by
  have hl := inv.lock
  cases h with
  | setMode =>
    rename_i m _ _ _ hf _ _
    have hm := Bool.toNat_le m
    simp only [total_cons, total_add, total_zero, Multiset.coe_nil, Role.holds] at hl ⊢
    omega
  | exit =>
    rename_i m _ _ _
    have hm := Bool.toNat_le m
    simp only [total_cons, total_add, total_zero, Multiset.coe_nil, Role.holds] at hl ⊢
    omega
  | halt hm hf hm' =>
    rename_i m m'
    have hm := Bool.toNat_le m'
    have hz : total Role.holds rest = 0 := by
      cases m with
      | false => exact hf rfl
      | true =>
        simp only [total_cons, Role.holds, Bool.toNat_true] at hl
        omega
    simp only [total_cons, total_add, total_zero, Multiset.coe_nil, Role.holds] at hl ⊢
    omega
  | _ =>
    simp only [total_cons, total_add, total_zero, total_singleton, Multiset.coe_nil, Multiset.coe_singleton,
      Role.holds, Bool.toNat_true, Bool.toNat_false] at hl ⊢
    omega

theorem gate_step (inv : Inv U b (r ::ₘ rest)) (h : Step U b rest r b' r' new) :
    0 < b'.mode.rank → b'.closed = true := by
  cases h with
  | close => exact fun _ => rfl
  | setMode _ _ hc _ => exact fun _ => hc
  | _ => exact inv.gate

theorem sane_step (inv : Inv U b (r ::ₘ rest)) (h : Step U b rest r b' r' new) :
    total (Role.absurd b'.epoch) (r' ::ₘ (↑new + rest)) = 0 := by
  have hs := inv.sane
  cases h with
  | still he =>
    have := absurd_le (r ::ₘ rest) he
    simp only [total_cons, total_add, total_zero, Multiset.coe_nil] at hs this ⊢
    omega
  | release he _ =>
    have := absurd_le rest he
    simp only [total_cons, total_add, total_zero, Multiset.coe_nil, Role.absurd] at hs ⊢
    omega
  | setMode he _ _ _ =>
    have := absurd_le rest he
    simp only [total_cons, total_add, total_zero, Multiset.coe_nil, Role.absurd] at hs ⊢
    omega
  | unregister he _ =>
    have := absurd_le rest he
    simp only [total_cons, total_add, total_zero, Multiset.coe_nil, Role.absurd] at hs ⊢
    omega
  | broadcast =>
    have := absurd_le rest (Nat.le_add_right b.epoch 1)
    simp only [total_cons, total_add, total_zero, Multiset.coe_nil, Role.absurd] at hs this ⊢
    omega
  | load hk hpos =>
    simp only [total_cons, total_add, total_zero, Multiset.coe_nil, Role.absurd] at hs ⊢
    simp only [Nat.pos_iff_ne_zero.mp hpos, if_false]
    omega
  | _ =>
    simp only [total_cons, total_add, total_zero, total_singleton, Multiset.coe_nil, Multiset.coe_singleton,
      Role.absurd, Nat.lt_irrefl, if_false] at hs ⊢
    omega

theorem drain_step (inv : Inv U b (r ::ₘ rest)) (h : Step U b rest r b' r' new) :
    0 < total Role.drains (r' ::ₘ (↑new + rest)) → b'.mode.rank = 1 := by
  have hd := inv.drain
  cases h with
  | setMode _ hf _ _ =>
    have := drains_le_holds rest
    simp only [total_cons, total_add, total_zero, Multiset.coe_nil, Role.drains] at hd ⊢
    omega
  | drainLook _ hm => exact fun _ => by rw [hm]; rfl
  | exitLook _ hm => exact fun _ => by rw [hm]; rfl
  | _ =>
    simp only [total_cons, total_add, total_zero, total_singleton, Multiset.coe_nil, Multiset.coe_singleton,
      Role.drains] at hd ⊢
    omega

theorem grow_step (inv : Inv U b (r ::ₘ rest)) (h : Step U b rest r b' r' new) :
    0 < total Role.grows (r' ::ₘ (↑new + rest)) → b'.mode.rank = 0 := by
  have hg := inv.grow
  cases h with
  | setMode _ hf _ _ =>
    have := grows_le_holds rest
    simp only [total_cons, total_add, total_zero, Multiset.coe_nil, Role.grows] at hg ⊢
    omega
  | growEntered hm _ => exact fun _ => by rw [hm]; rfl
  | growSpare hm _ _ => exact fun _ => by rw [hm]; rfl
  | vouch hm _ => exact fun _ => by rw [hm]; rfl
  | _ =>
    simp only [total_cons, total_add, total_zero, total_singleton, Multiset.coe_nil, Multiset.coe_singleton,
      Role.grows] at hg ⊢
    omega

theorem vouch_step (inv : Inv U b (r ::ₘ rest)) (h : Step U b rest r b' r' new) :
    0 < total Role.vouches (r' ::ₘ (↑new + rest)) → 0 < total Role.works (r' ::ₘ (↑new + rest)) := by
  have hv := inv.vouch
  have hl := inv.lock
  have hb := vouches_le_grows rest
  have hb' := grows_le_holds rest
  cases h with
  | @unregister m _ _ hf =>
    cases m with
    | false =>
      have := hf rfl
      simp only [total_cons, total_add, total_zero, Multiset.coe_nil, Role.vouches]
      omega
    | true =>
      simp only [total_cons, total_add, total_zero, Multiset.coe_nil, Role.vouches, Role.holds,
        Bool.toNat_true] at hl ⊢
      omega
  | _ =>
    simp only [total_cons, total_add, total_zero, total_singleton, Multiset.coe_nil, Multiset.coe_singleton,
      Role.vouches, Role.works, Role.holds, Place.works, Bool.toNat_true, Bool.toNat_false] at hv hl ⊢
    omega

theorem tidy_step (inv : Inv U b (r ::ₘ rest)) (h : Step U b rest r b' r' new) :
    ¬ U.fixed → total Role.strays (r' ::ₘ (↑new + rest)) = 0 := by
  intro hu
  have ht := inv.tidy hu
  cases h with
  | @release x _ _ hx =>
    have hz : x.leaves = 0 := by
      cases x with
      | leaving => exact absurd (hx rfl) hu
      | _ => rfl
    simp only [total_cons, total_add, total_zero, Multiset.coe_nil, Role.strays, hz, Nat.zero_mul] at ht ⊢
    omega
  | @exit m _ hm _ =>
    cases m with
    | false => exact absurd (hm rfl) hu
    | true => simpa [Role.strays] using ht
  | @halt m m' _ _ hm =>
    cases m' with
    | false => exact absurd (hm rfl) hu
    | true =>
      simp only [total_cons, total_add, total_zero, Multiset.coe_nil, Role.strays, Place.leaves,
        Nat.zero_mul, Bool.not_true, Bool.toNat_false, Nat.mul_zero] at ht ⊢
      omega
  | _ =>
    simp only [total_cons, total_add, total_zero, total_singleton, Multiset.coe_nil, Multiset.coe_singleton,
      Role.strays, Place.leaves, Nat.zero_mul, Bool.not_true, Bool.toNat_false, Nat.mul_zero] at ht ⊢
    omega

/-- Where a worker is registered besides the holder of the monitor, one stays. -/
theorem others_stay (inv : Inv U b (r ::ₘ rest)) (hr : 0 < Role.holds r) (hu : ¬ U.fixed)
    (hw : 0 < total Role.works rest) : 0 < total Role.stays rest := by
  have hl := inv.lock
  have ht := inv.tidy hu
  have hb := works_le rest
  simp only [total_cons] at hl ht
  omega

theorem retire_step (inv : Inv U b (r ::ₘ rest)) (h : Step U b rest r b' r' new) :
    0 < total Role.retires (r' ::ₘ (↑new + rest)) → 0 < b'.items.length →
      0 < b'.tokens ∨ 0 < total Role.pushes (r' ::ₘ (↑new + rest)) := by
  have hr := inv.retire
  have hl := inv.lock
  have hs := inv.sane
  have hb := retires_le_holds rest
  cases h with
  | retireLook hi =>
    intro _ hpos
    simp [hi] at hpos
  | take hi =>
    intro h₁ h₂
    obtain ⟨j, hj⟩ := List.exists_mem_of_length_pos h₂
    have hpos : 0 < b.items.length := List.length_pos_of_mem (hi j hj)
    simp only [total_cons, total_add, total_zero, Multiset.coe_nil, Role.retires, Role.pushes] at hr h₁ ⊢
    omega
  | loadNone hk =>
    have := retires_le_marks rest
    simp only [total_cons, total_add, total_zero, Multiset.coe_nil, Role.retires]
    omega
  | @covered j k ht =>
    have hk : k ≠ 0 := by
      intro hk
      simp [Role.absurd, hk] at hs
    intro _ _
    exact Or.inl (by omega)
  | _ =>
    simp only [total_cons, total_add, total_zero, total_singleton, Multiset.coe_nil, Multiset.coe_singleton,
      Role.retires, Role.pushes, Role.holds, Bool.toNat_true, Bool.toNat_false, List.length_append] at hr hl ⊢
    omega

theorem quiet_step (inv : Inv U b (r ::ₘ rest)) (h : Step U b rest r b' r' new) :
    0 < total Role.quiets (r' ::ₘ (↑new + rest)) → 0 < b'.tokens →
      0 < total Role.raises (r' ::ₘ (↑new + rest)) := by
  have hq := inv.quiet
  have hl := inv.lock
  have hb := quiets_le_holds rest
  cases h
  all_goals
    simp only [total_cons, total_add, total_zero, total_singleton, Multiset.coe_nil, Multiset.coe_singleton,
      Role.quiets, Role.raises, Role.holds, Bool.toNat_true, Bool.toNat_false] at hq hl ⊢
    omega

/-- A worker that finds nobody inside the gate after it saw no token leaves nothing behind. -/
theorem calm_of_alone (inv : Inv U b (.retireClear ::ₘ rest)) (hz : total Role.inside rest = 0)
    (hu : ¬ U.fixed) : Calm U b (.retireSure ::ₘ rest) := by
  have hr := inv.retire
  have hq := inv.quiet
  have h₁ := reserves_le_inside rest
  have h₂ := pushes_le_inside rest
  have h₃ := raises_le_inside rest
  simp only [total_cons, Role.retires, Role.pushes, Role.quiets, Role.raises] at hr hq
  refine ⟨by omega, ?_, fun h => absurd h hu⟩
  simp only [total_cons, Role.reserves]
  omega

/-- Every step keeps a staying worker or leaves a calm board behind. -/
theorem stay_step (inv : Inv U b (r ::ₘ rest)) (h : Step U b rest r b' r' new)
    (hs : 0 < total Role.stays (r ::ₘ rest) ∨ Calm U b (r ::ₘ rest))
    (hx : b'.mode.rank = 0 ∨ b'.mode.rank = 1 ∧ (U.exitGuard ∨ U.fixed ∧ 2 ≤ U.size) ∨
      0 < total Role.sures (r' ::ₘ (↑new + rest))) :
    0 < total Role.stays (r' ::ₘ (↑new + rest)) ∨ Calm U b' (r' ::ₘ (↑new + rest)) := by
  have hl := inv.lock
  have hb := quiets_le_holds rest
  have hb' := sures_le_quiets rest
  rcases hs with hs | hs
  · cases h with
    | retireCrowd _ hw hu =>
      have := inv.others_stay (by simp [Role.holds]) hu hw
      left
      simp only [total_cons, total_add]
      omega
    | retireAlone hz hu => exact Or.inr (by simpa using inv.calm_of_alone hz hu)
    | spare _ hw hu =>
      have := inv.others_stay (by simp [Role.holds]) hu hw
      left
      simp only [total_cons, total_add]
      omega
    | @exit m hz _ hg =>
      have hd := inv.drain
      have hc := inv.crew
      have hx' := exits_le_holds rest
      have hres := reserves_le_inside rest
      simp only [total_cons, total_add, total_zero, Multiset.coe_nil, Role.holds, Role.drains, Role.sures,
        Role.stays, Role.inside, Role.exits, Place.stays] at hl hd hx hc ⊢
      by_cases hrest : total Role.stays rest = 0
      · have hclosed : b.closed = true := inv.gate (by omega)
        have hlen : b.items.length = 0 := by
          rcases hx with hx | ⟨-, hx | ⟨hu, hsize⟩⟩ | hx
          · omega
          · simp [hg hx hrest]
          · exact (hc hu (by omega) (by omega)).2.2 (by omega)
          · omega
        refine Or.inr ⟨hlen, ?_, fun _ => ⟨hclosed, ?_⟩⟩
        · simp only [total_cons, total_add, total_zero, Role.reserves, Place.reserves]
          omega
        · simp only [total_cons, total_add, total_zero, Role.inside, Place.within]
          omega
      · left
        omega
    | @halt m m' hm hf _ =>
      have hrank : b.mode.rank = 2 := by rw [hm]; rfl
      have hz : total Role.holds rest = 0 := by
        cases m with
        | false => exact hf rfl
        | true =>
          simp only [total_cons, Role.holds, Bool.toNat_true] at hl
          omega
      simp only [total_cons, total_add, total_zero, Multiset.coe_nil, Role.sures] at hx
      omega
    | _ =>
      left
      simp only [total_cons, total_add, total_zero, total_singleton, Multiset.coe_nil,
        Multiset.coe_singleton, Role.stays, Place.stays] at hs ⊢
      omega
  · by_cases hv : r = .vouched ∧ r' = .plain .reserved true
    · obtain ⟨rfl, rfl⟩ := hv
      cases h with
      | reserve hu =>
        have hw := inv.vouch
        simp only [total_cons, Role.vouches, Role.works] at hw
        have := inv.others_stay (by simp [Role.holds]) hu (by omega)
        left
        simp only [total_cons, total_add]
        omega
    · exact Or.inr (hs.step h fun hr hr' => hv ⟨hr, hr'⟩)

theorem staffed_step (inv : Inv U b (r ::ₘ rest)) (h : Step U b rest r b' r' new)
    (hx : b'.mode.rank = 0 ∨ b'.mode.rank = 1 ∧ (U.exitGuard ∨ U.fixed ∧ 2 ≤ U.size)) :
    0 < total Role.stays (r' ::ₘ (↑new + rest)) ∨ Calm U b' (r' ::ₘ (↑new + rest)) := by
  have hm := h.rank_le
  refine inv.stay_step h (inv.staffed ?_) ?_
  · rcases hx with hx | ⟨hx, hg⟩
    · exact Or.inl (by omega)
    · rcases Nat.eq_zero_or_pos b.mode.rank with hz | hz
      · exact Or.inl hz
      · exact Or.inr ⟨by omega, hg⟩
  · rcases hx with hx | hx
    · exact Or.inl hx
    · exact Or.inr (Or.inl hx)

theorem sure_step (inv : Inv U b (r ::ₘ rest)) (h : Step U b rest r b' r' new)
    (hx : 0 < total Role.sures (r' ::ₘ (↑new + rest))) :
    0 < total Role.stays (r' ::ₘ (↑new + rest)) ∨ Calm U b' (r' ::ₘ (↑new + rest)) := by
  by_cases hold : 0 < total Role.sures (r ::ₘ rest)
  · exact inv.stay_step h (inv.sure hold) (Or.inr (Or.inr hx))
  · refine inv.stay_step h (Or.inl ?_) (Or.inr (Or.inr hx))
    -- Only a worker that stays until this step becomes sure to retire.
    cases h
    all_goals
      simp only [total_cons, total_add, total_zero, total_singleton, Multiset.coe_nil,
        Multiset.coe_singleton, Role.sures, Role.stays] at hold hx ⊢
      omega

theorem crew_step (inv : Inv U b (r ::ₘ rest)) (h : Step U b rest r b' r' new) (hu : U.fixed)
    (hm : b'.mode.rank ≤ 1) (hs : total Role.stays (r' ::ₘ (↑new + rest)) < U.size) :
    b'.closed = true ∧ total Role.inside (r' ::ₘ (↑new + rest)) = 0 ∧
      (0 < total Role.exits (r' ::ₘ (↑new + rest)) → b'.items.length = 0) := by
  have hc := inv.crew hu (le_trans h.rank_le hm)
  cases h with
  | enter hopen =>
    simp only [total_cons, total_add, total_zero, Multiset.coe_nil, Role.stays, Place.stays] at hs hc
    exact absurd (hc (by omega)).1 (by simp [hopen])
  | close =>
    simp only [total_cons, total_add, total_zero, Multiset.coe_nil, Role.stays, Place.stays] at hs
    obtain ⟨-, hin, hx⟩ := hc (by simpa [Role.stays, Place.stays] using hs)
    exact ⟨rfl, by simpa using hin, by simpa using hx⟩
  | reserveFree _ =>
    simp only [total_cons, total_add, total_zero, Multiset.coe_nil, Role.stays, Place.stays] at hs
    have hin := (hc (by simpa [Role.stays, Place.stays] using hs)).2.1
    simp [Role.inside, Place.within] at hin
  | push =>
    simp only [total_cons, total_add, total_zero, Multiset.coe_nil, Role.stays] at hs
    have hin := (hc (by simpa [Role.stays, Place.stays] using hs)).2.1
    simp [Role.inside, Place.within] at hin
  | take hi =>
    rename_i items
    obtain ⟨hcl, hin, hx⟩ := hc (by simpa using hs)
    refine ⟨hcl, by simpa using hin, fun hpos => ?_⟩
    have hz := hx (by simpa using hpos)
    rw [List.length_eq_zero_iff] at hz ⊢
    exact List.eq_nil_iff_forall_not_mem.mpr fun j hj => by simpa [hz] using hi j hj
  | exitLook hi =>
    simp only [total_cons, total_add, total_zero, Multiset.coe_nil, Role.stays] at hs
    obtain ⟨hcl, hin, -⟩ := hc (by simpa [Role.stays, Place.stays] using hs)
    refine ⟨hcl, by simpa [Role.inside, Place.within] using hin, fun _ => by simp [hi]⟩
  | exit hz =>
    have hd := inv.drain
    have hl := inv.lock
    have hx := exits_le_holds rest
    simp only [total_cons, total_add, total_zero, Multiset.coe_nil, Role.drains, Role.holds, Role.exits,
      Role.inside, Place.within] at hd hl ⊢
    exact ⟨inv.gate (by omega), by omega, by omega⟩
  | retireCrowd _ _ hu' => exact absurd hu hu'
  | retireAlone _ hu' => exact absurd hu hu'
  | spare _ _ hu' => exact absurd hu hu'
  | halt hm' => rw [hm', Mode.rank] at hm; omega
  | _ =>
    simp only [total_cons, total_add, total_zero, total_singleton, Multiset.coe_nil, Multiset.coe_singleton,
      Role.stays, Place.stays, Role.inside, Place.within, Role.exits, Bool.toNat_true,
      Bool.toNat_false] at hs hc ⊢
    obtain ⟨hcl, hin, hx⟩ := hc (by omega)
    exact ⟨hcl, by omega, fun hpos => hx (by omega)⟩

theorem token_step (inv : Inv U b (r ::ₘ rest)) (h : Step U b rest r b' r' new)
    (hg : b'.mode.rank = 0 ∨ U.parkGuard) (hp : 0 < total (Role.sleeping b'.epoch) (r' ::ₘ (↑new + rest)))
    (ht : 0 < b'.tokens) : 0 < total Role.raises (r' ::ₘ (↑new + rest)) := by
  have hs := inv.sane
  have hold := inv.token (hg.imp_left fun h₀ => by have := h.rank_le; omega)
  cases h with
  | still he =>
    have := sleeping_le (r ::ₘ rest) he
    simp only [total_cons, total_add, total_zero, Multiset.coe_nil] at *
    omega
  | release he _ =>
    have := sleeping_le rest he
    simp only [total_cons, total_add, total_zero, Multiset.coe_nil, Role.sleeping, Role.absurd, Role.raises] at *
    omega
  | setMode he _ _ _ =>
    have := sleeping_le rest he
    simp only [total_cons, total_add, total_zero, Multiset.coe_nil, Role.sleeping, Role.absurd, Role.raises] at *
    omega
  | unregister he _ =>
    have := sleeping_le rest he
    simp only [total_cons, total_add, total_zero, Multiset.coe_nil, Role.sleeping, Role.absurd, Role.raises] at *
    omega
  | broadcast hf =>
    have := sleeping_le_notified rest (e := b.epoch)
    simp only [total_cons, total_add, total_zero, Multiset.coe_nil, Role.sleeping, Role.absurd] at *
    omega
  | drainPark hpark =>
    have hd := inv.drain
    simp only [total_cons, total_add, total_zero, Multiset.coe_nil, Role.drains, Role.raises] at *
    rcases hg with hg | hg
    · omega
    · have := hpark hg
      omega
  | _ =>
    simp only [total_cons, total_add, total_zero, total_singleton, Multiset.coe_nil, Multiset.coe_singleton,
      Role.sleeping, Role.raises, if_true] at hp hold ht ⊢
    omega

theorem woken_step (inv : Inv U b (r ::ₘ rest)) (h : Step U b rest r b' r' new) (hm : b'.mode.rank ≤ 1)
    {j : ι} (hj : j ∈ b'.items) :
    0 < total (Role.pushesOf j) (r' ::ₘ (↑new + rest)) ∨ Covered b' (r' ::ₘ (↑new + rest)) := by
  have hs := inv.sane
  have hl := inv.lock
  have hrank := h.rank_le
  have hold := inv.woken (le_trans hrank hm) j
  have hpos := List.length_pos_of_mem hj
  unfold Covered at *
  cases h with
  | still he =>
    have := attentive_le (r ::ₘ rest) he
    have := hold hj
    simp only [total_cons, total_add, total_zero, Multiset.coe_nil] at *
    omega
  | release he _ =>
    have := attentive_le rest he
    have := hold hj
    simp only [total_cons, total_add, total_zero, Multiset.coe_nil, Role.pushesOf, Role.attentive, Role.absurd,
      Role.raises, Role.stays, Role.exits] at *
    omega
  | setMode he _ _ _ =>
    have := attentive_le rest he
    have := hold hj
    simp only [total_cons, total_add, total_zero, Multiset.coe_nil, Role.pushesOf, Role.attentive, Role.absurd,
      Role.raises, Role.stays, Role.exits] at *
    omega
  | unregister he _ =>
    have := attentive_le rest he
    have := hold hj
    simp only [total_cons, total_add, total_zero, Multiset.coe_nil, Role.pushesOf, Role.attentive, Role.absurd,
      Role.raises, Role.stays, Role.exits, Place.stays] at *
    omega
  | take hi =>
    have := hold (hi j hj)
    simp only [total_cons, total_add, total_zero, Multiset.coe_nil] at *
    omega
  | push =>
    rcases List.mem_append.mp hj with hj | hj
    · have := hold hj
      simp only [total_cons, total_add, total_zero, Multiset.coe_nil, Role.pushesOf, Role.attentive,
        Role.raises, Role.stays, Role.exits, Place.stays] at *
      omega
    · obtain rfl : j = _ := List.mem_singleton.mp hj
      left
      simp [Role.pushesOf]
  | loadNone hk =>
    have hd := inv.drain
    have hst := inv.staffed
    have h₁ := stays_le rest (e := b.epoch)
    have h₂ := exits_le_drains rest
    have h₃ := exits_le_stays rest
    have := hold hj
    simp only [total_cons, total_add, total_zero, Multiset.coe_nil, Role.pushesOf, Role.attentive,
      Role.raises, Role.stays, Role.exits, Role.drains, Place.stays] at *
    by_cases hz : b.mode.rank = 0
    · rcases hst (Or.inl hz) with hst | hst
      · omega
      · have := hst.1
        omega
    · omega
  | @covered i k ht =>
    have hk : k ≠ 0 := by
      intro hk
      simp [Role.absurd, hk] at hs
    exact Or.inr (Or.inr (Or.inl (by omega)))
  | broadcast hf =>
    have hst := inv.staffed
    have h₁ := stays_le_notified rest (e := b.epoch)
    have h₂ := exits_le_holds rest
    have := hold hj
    simp only [total_cons, total_add, total_zero, Multiset.coe_nil, Role.pushesOf, Role.attentive,
      Role.raises, Role.stays, Role.exits, Role.absurd, Place.stays] at *
    by_cases hz : b.mode.rank = 0
    · rcases hst (Or.inl hz) with hst | hst
      · omega
      · have := hst.1
        omega
    · omega
  | look hi => simp [hi] at hj
  | drainLook hi => simp [hi] at hj
  | retireLook hi => simp [hi] at hj
  | exitLook hi => simp [hi] at hj
  | spare hi => simp [hi] at hj
  | retireCrowd =>
    have h₁ := exits_le_stays rest
    have := hold hj
    simp only [total_cons, total_add, total_zero, Multiset.coe_nil, Role.pushesOf, Role.attentive,
      Role.raises, Role.stays, Role.exits] at *
    omega
  | retireAlone =>
    have h₁ := exits_le_stays rest
    have := hold hj
    simp only [total_cons, total_add, total_zero, Multiset.coe_nil, Role.pushesOf, Role.attentive,
      Role.raises, Role.stays, Role.exits] at *
    omega
  | consumeRetire =>
    have hq := inv.quiet
    have := hold hj
    simp only [total_cons, total_add, total_zero, Multiset.coe_nil, Role.pushesOf, Role.attentive,
      Role.raises, Role.stays, Role.exits, Role.quiets, Place.stays] at *
    omega
  | halt hm' => rw [hm', Mode.rank] at hm; omega
  | _ =>
    have := hold hj
    simp only [total_cons, total_add, total_zero, total_singleton, Multiset.coe_nil, Multiset.coe_singleton,
      Role.pushesOf, Role.attentive, Role.raises, Role.stays, Role.exits, Place.stays, if_true] at *
    omega

/-- The invariant is kept by every step of every actor. -/
theorem step (inv : Inv U b (r ::ₘ rest)) (h : Step U b rest r b' r' new) :
    Inv U b' (r' ::ₘ (↑new + rest)) where
  lock := inv.lock_step h
  gate := inv.gate_step h
  sane := inv.sane_step h
  drain := inv.drain_step h
  grow := inv.grow_step h
  vouch := inv.vouch_step h
  tidy := inv.tidy_step h
  retire := inv.retire_step h
  quiet := inv.quiet_step h
  sure := inv.sure_step h
  staffed := inv.staffed_step h
  crew := inv.crew_step h
  token := inv.token_step h
  woken := fun hm _ hj => inv.woken_step h hm hj

/-- A new actor changes nothing until it acts. -/
theorem join (inv : Inv U b rest) : Inv U b (.plain .outside false ::ₘ rest) := by
  have e : ∀ f : Role ι → ℕ, f (.plain .outside false) = 0 →
      total f (.plain .outside false ::ₘ rest) = total f rest := by
    intro f hf
    rw [total_cons, hf, Nat.zero_add]
  have hc : Calm U b (.plain .outside false ::ₘ rest) ↔ Calm U b rest := by
    simp only [Calm, e Role.reserves rfl, e Role.inside rfl]
  constructor
  · simpa only [e Role.holds rfl] using inv.lock
  · exact inv.gate
  · simpa only [e (Role.absurd b.epoch) rfl] using inv.sane
  · simpa only [e Role.drains rfl] using inv.drain
  · simpa only [e Role.grows rfl] using inv.grow
  · simpa only [e Role.vouches rfl, e Role.works rfl] using inv.vouch
  · simpa only [e Role.strays rfl] using inv.tidy
  · simpa only [e Role.retires rfl, e Role.pushes rfl] using inv.retire
  · simpa only [e Role.quiets rfl, e Role.raises rfl] using inv.quiet
  · simpa only [e Role.sures rfl, e Role.stays rfl, hc] using inv.sure
  · simpa only [e Role.stays rfl, hc] using inv.staffed
  · simpa only [e Role.stays rfl, e Role.inside rfl, e Role.exits rfl] using inv.crew
  · simpa only [e (Role.sleeping b.epoch) rfl, e Role.raises rfl] using inv.token
  · intro hm j hj
    simpa only [Covered, e (Role.pushesOf j) rfl, e (Role.attentive b.epoch) rfl, e Role.raises rfl,
      e Role.stays rfl, e Role.exits rfl] using inv.woken hm j hj

theorem start_elastic (hu : ¬ U.fixed) : Inv U (⟨.admitting, false, [], 0, 0⟩ : Board ι) 0 := by
  have hc : Calm U (⟨.admitting, false, [], 0, 0⟩ : Board ι) 0 := ⟨rfl, rfl, fun h => absurd h hu⟩
  refine ⟨?_, nofun, rfl, nofun, nofun, nofun, fun _ => rfl, nofun, nofun, nofun, fun _ => Or.inr hc,
    fun h => absurd h hu, nofun, nofun⟩
  simp

theorem start_fixed (hu : U.fixed) (hpos : 0 < U.size) :
    Inv U (⟨.admitting, false, [], 0, 0⟩ : Board ι) (Multiset.replicate U.size (.plain .fresh false)) := by
  have hrep : ∀ f : Role ι → ℕ, total f (Multiset.replicate U.size (.plain .fresh false)) =
      U.size * f (.plain .fresh false) := by
    intro f
    simp [total]
  refine ⟨?_, (by rintro ⟨⟩), ?_, ?_, ?_, ?_, fun h => absurd hu h, ?_, ?_, ?_, fun _ => Or.inl ?_, ?_, ?_,
    fun _ => List.forall_mem_nil _⟩
  all_goals
    simp [hrep, Role.holds, Role.absurd, Role.drains, Role.grows, Role.vouches, Role.retires,
      Role.quiets, Role.sures, Role.stays, Role.sleeping, Place.stays, hpos]

/-- While items are admitted, a published or announced item has a worker. -/
theorem staffed_of_work (inv : Inv U b rest) (hm : b.mode = .admitting)
    (hw : b.items ≠ [] ∨ 0 < total Role.reserves rest) : 0 < total Role.works rest := by
  have hst := inv.staffed (Or.inl (by rw [hm]; rfl))
  have hle := stays_le_works rest
  rcases hst with hst | ⟨hlen, hres, -⟩
  · omega
  · rcases hw with hw | hw
    · exact absurd (List.length_eq_zero_iff.mp hlen) hw
    · omega

/-- Once the last worker has decided to leave, nothing is left behind. -/
theorem calm_of_deserted (inv : Inv U b rest) (hm : b.mode = .draining)
    (hg : U.exitGuard ∨ U.fixed ∧ 2 ≤ U.size) (hw : total Role.stays rest = 0) : Calm U b rest := by
  rcases inv.staffed (Or.inr ⟨by rw [hm]; rfl, hg⟩) with hst | hst
  · omega
  · exact hst

/-- An item whose producer is done with it is not left to sleeping workers. -/
theorem no_lost_wakeup (inv : Inv U b rest) {j : ι} (hj : j ∈ b.items)
    (hm : b.mode = .admitting ∨ b.mode = .draining ∧ U.parkGuard ∧ 0 < total Role.stays rest)
    (hp : total (Role.pushesOf j) rest = 0) (hr : total Role.raises rest = 0)
    (hs : ∀ r ∈ rest, 0 < r.stays → r = .parked b.epoch) : False := by
  have hrank : b.mode.rank ≤ 1 := by
    rcases hm with hm | ⟨hm, -⟩ <;> rw [hm] <;> decide
  have hlen := List.length_pos_of_mem hj
  have hstay : 0 < total Role.stays rest := by
    rcases hm with hm | ⟨-, -, hw⟩
    · rcases inv.staffed (Or.inl (by rw [hm]; rfl)) with hst | ⟨hz, -, -⟩
      · exact hst
      · omega
    · exact hw
  obtain ⟨w, hw, hpos⟩ := total_pos_iff.mp hstay
  obtain rfl := hs w hw hpos
  have hsleep : 0 < total (Role.sleeping b.epoch) rest :=
    total_pos_iff.mpr ⟨_, hw, by simp [Role.sleeping]⟩
  rcases inv.woken hrank j hj with h | h | h | h | ⟨-, he⟩
  · omega
  · obtain ⟨q, hq, hpos⟩ := total_pos_iff.mp h
    have hsq : 0 < q.stays := by
      cases q <;> first | exact hpos | exact Nat.one_pos
    obtain rfl := hs q hq hsq
    simp [Role.attentive] at hpos
  · have hg : b.mode.rank = 0 ∨ U.parkGuard := by
      rcases hm with hm | ⟨-, hg, -⟩
      · exact Or.inl (by rw [hm]; rfl)
      · exact Or.inr hg
    have := inv.token hg hsleep h
    omega
  · omega
  · rw [he] at hstay
    obtain ⟨q, hq, hpos⟩ := total_pos_iff.mp hstay
    cases q with
    | exitSeen => cases hs _ hq Nat.one_pos
    | _ => simp [Role.exits] at hpos

end Inv

end ThreadPools.Wakeup
