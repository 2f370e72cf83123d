import Mathlib

/-!
# Where a sector of a RAID-4 or RAID-5 array is

`raid5_compute_sector` cuts the array into chunks and deals them out to the disks, one stripe after
the other, leaving out the disk that has the parity of the stripe.  RAID-4 always leaves out the
last one; the four layouts of RAID-5 go through the disks from the left or from the right, and the
symmetric ones begin to deal out behind the parity and not at disk `0`.

What the five have in common is that in each stripe they are a bijection from the chunks of data to
the disks without the parity.  The rest is that a sector is given by its stripe, its chunk in the
stripe and its offset in the chunk, on both sides.

No sum or product in `raid5_compute_sector` is greater than the number of the sector or twice that
of the disks, so nothing wraps there.  The product in `raid5_sync_request` is the number of a sector
of the array, and these are taken to have room in an `unsigned long`.
-/

set_option autoImplicit false

namespace Linux24.Raid5

/-- `raid5_run` refuses greater numbers.  It does not refuse negative ones, which are left out. -/
inductive Algorithm
  | leftAsymmetric
  | rightAsymmetric
  | leftSymmetric
  | rightSymmetric
  deriving DecidableEq, Repr

/-- `struct raid5_private_data`. -/
structure Conf where
  chunkSize : ℕ
  level : ℕ
  algorithm : Algorithm
  raidDisks : ℕ
  deriving DecidableEq, Repr

def Conf.sectorsPerChunk (conf : Conf) : ℕ := conf.chunkSize >>> 9

/-- The disks with the data and with the parity, and the sector on them. -/
structure Place where
  ddIdx : ℕ
  pdIdx : ℕ
  sector : ℕ
  deriving DecidableEq, Repr

/-- The part of `raid5_compute_sector` that selects `*dd_idx` and `*pd_idx`. -/
def selectDisks (stripe ddIdx raidDisks dataDisks : ℕ) (conf : Conf) : ℕ × ℕ :=
  if conf.level = 4 then (ddIdx, dataDisks)
  else
    match conf.algorithm with
    | .leftAsymmetric =>
      let pdIdx := dataDisks - stripe % raidDisks
      (if pdIdx ≤ ddIdx then ddIdx + 1 else ddIdx, pdIdx)
    | .rightAsymmetric =>
      let pdIdx := stripe % raidDisks
      (if pdIdx ≤ ddIdx then ddIdx + 1 else ddIdx, pdIdx)
    | .leftSymmetric =>
      let pdIdx := dataDisks - stripe % raidDisks
      ((pdIdx + 1 + ddIdx) % raidDisks, pdIdx)
    | .rightSymmetric =>
      let pdIdx := stripe % raidDisks
      ((pdIdx + 1 + ddIdx) % raidDisks, pdIdx)

def raid5ComputeSector (rSector raidDisks dataDisks : ℕ) (conf : Conf) : Place :=
  let chunkNumber := rSector / conf.sectorsPerChunk
  let chunkOffset := rSector % conf.sectorsPerChunk
  let stripe := chunkNumber / dataDisks
  let disks := selectDisks stripe (chunkNumber % dataDisks) raidDisks dataDisks conf
  ⟨disks.1, disks.2, stripe * conf.sectorsPerChunk + chunkOffset⟩

namespace Conf

variable (conf : Conf)

/-- Both callers set one disk aside for the parity. -/
abbrev dataDisks : ℕ := conf.raidDisks - 1

/-- The call in `raid5_make_request`. -/
def place (rSector : ℕ) : Place :=
  raid5ComputeSector rSector conf.raidDisks conf.dataDisks conf

/-- The call in `raid5_sync_request`, which has a sector of the disks. -/
def syncPlace (sectorNr : ℕ) : Place :=
  let stripe := sectorNr / conf.sectorsPerChunk
  let chunkOffset := sectorNr % conf.sectorsPerChunk
  conf.place (stripe * conf.dataDisks * conf.sectorsPerChunk + chunkOffset)

end Conf

/-! ## One stripe -/

section Stripe

variable {n p : ℕ} {f : ℕ → ℕ}

/-- The chunks of data of a stripe are dealt out to the disks other than `p`. -/
def Deals (n p : ℕ) (f : ℕ → ℕ) : Prop :=
  p < n ∧ Set.BijOn f (Set.Iio (n - 1)) (Set.Iio n \ {p})

/-- There are as many chunks as disks, so it is enough that no two go to the same one. -/
theorem deals_of_injOn (hp : p < n) (hmaps : Set.MapsTo f (Set.Iio (n - 1)) (Set.Iio n \ {p}))
    (hinj : Set.InjOn f (Set.Iio (n - 1))) : Deals n p f := by
  refine ⟨hp, hmaps, hinj, fun k hk ↦ ?_⟩
  obtain ⟨d, hd, rfl⟩ := Set.surj_on_of_inj_on_of_ncard_le (fun d _ ↦ f d) hmaps
    (fun d e hd he ↦ hinj hd he) (by simp [hp]) (Set.toFinite _) k hk
  exact ⟨d, hd, rfl⟩

theorem deals_asymmetric (hp : p < n) : Deals n p fun d ↦ if p ≤ d then d + 1 else d := by
  refine deals_of_injOn hp (fun d hd ↦ ?_) fun d _ e _ h ↦ ?_
  · simp only [Set.mem_Iio, Set.mem_sdiff, Set.mem_singleton_iff] at hd ⊢
    split <;> omega
  · split at h <;> split at h <;> omega

theorem deals_symmetric (hp : p < n) : Deals n p fun d ↦ (p + 1 + d) % n := by
  refine deals_of_injOn hp (fun d hd ↦ ⟨Nat.mod_lt _ (by omega), fun h ↦ ?_⟩) fun d hd e he h ↦ ?_
  all_goals rw [Set.mem_Iio] at *
  · have hmod : p + (1 + d) ≡ p + 0 [MOD n] := by
      rw [← add_assoc]
      exact Eq.trans h (Nat.mod_eq_of_lt hp).symm
    have h0 := (Nat.ModEq.add_left_cancel' p hmod).eq_of_lt_of_lt (by omega) (by omega)
    omega
  · exact (Nat.ModEq.add_left_cancel' (p + 1) h).eq_of_lt_of_lt (by omega) (by omega)

variable (conf : Conf) (stripe : ℕ)

/-- The parity does not depend on the chunk. -/
theorem selectDisks_snd (d e : ℕ) :
    (selectDisks stripe d n p conf).2 = (selectDisks stripe e n p conf).2 := by
  rw [selectDisks, selectDisks]
  split
  · rfl
  · split <;> rfl

/-- **Each layout deals the chunks out.** -/
theorem selectDisks_deals (hn : 2 ≤ n) : Deals n (selectDisks stripe 0 n (n - 1) conf).2
    fun d ↦ (selectDisks stripe d n (n - 1) conf).1 := by
  have hright : stripe % n < n := Nat.mod_lt stripe (by omega)
  have hleft : n - 1 - stripe % n < n := by omega
  by_cases h4 : conf.level = 4
  · have hlast : n - 1 < n := by omega
    simp only [selectDisks, if_pos h4]
    exact ⟨hlast, (deals_asymmetric hlast).2.congr fun d hd ↦ if_neg (not_le.2 hd)⟩
  · simp only [selectDisks, if_neg h4]
    cases conf.algorithm with
    | leftAsymmetric => exact deals_asymmetric hleft
    | rightAsymmetric => exact deals_asymmetric hright
    | leftSymmetric => exact deals_symmetric hleft
    | rightSymmetric => exact deals_symmetric hright

end Stripe

/-! ## The array -/

section Numbers

variable {q m d c k : ℕ}

theorem div_mod_of_lt (hd : d < m) : (q * m + d) / m = q ∧ (q * m + d) % m = d :=
  (Nat.div_mod_unique (by omega)).2 ⟨by rw [mul_comm, add_comm], hd⟩

/-- What is in a complete stripe is in the array. -/
theorem lt_of_lt_div {size : ℕ} (hd : d < m) (hk : k < c) (hq : q < size / (m * c)) :
    (q * m + d) * c + k < size :=
  calc (q * m + d) * c + k < (q * m + d + 1) * c := by
        rw [Nat.succ_mul]
        omega
    _ ≤ (q * m + m) * c := Nat.mul_le_mul_right c (by omega)
    _ = (q + 1) * (m * c) := by ring
    _ ≤ size := (Nat.mul_le_mul_right _ hq).trans (Nat.div_mul_le_self _ _)

end Numbers

namespace Conf

variable {conf : Conf} {stripe d k : ℕ}

/-- Where a sector is, by its stripe, its chunk in the stripe and its offset in the chunk. -/
theorem place_eq (hd : d < conf.dataDisks) (hk : k < conf.sectorsPerChunk) :
    conf.place ((stripe * conf.dataDisks + d) * conf.sectorsPerChunk + k) =
      ⟨(selectDisks stripe d conf.raidDisks conf.dataDisks conf).1,
        (selectDisks stripe 0 conf.raidDisks conf.dataDisks conf).2,
        stripe * conf.sectorsPerChunk + k⟩ := by
  simp only [place, raid5ComputeSector, div_mod_of_lt hk, div_mod_of_lt hd]
  rw [selectDisks_snd conf stripe d 0]

theorem syncPlace_pdIdx (h0 : 0 < conf.dataDisks) (hk : k < conf.sectorsPerChunk) :
    (conf.syncPlace (stripe * conf.sectorsPerChunk + k)).pdIdx =
      (selectDisks stripe 0 conf.raidDisks conf.dataDisks conf).2 := by
  rw [syncPlace, (div_mod_of_lt hk).1, (div_mod_of_lt hk).2]
  exact congrArg Place.pdIdx (place_eq h0 hk)

/-- **The mapping is a bijection** from the sectors of the array to those sectors of the disks that
are not for the parity: different sectors are at different places, the data is not where the parity
is, the parity of a chunk of the disks is the same for all that is in it and is what
`raid5_sync_request` takes it to be, and every sector for data in the complete stripes is used. -/
theorem place_bijective (conf : Conf) (hn : 2 ≤ conf.raidDisks) (hchunk : 512 ≤ conf.chunkSize) :
    (∀ r r', (conf.place r).ddIdx = (conf.place r').ddIdx →
      (conf.place r).sector = (conf.place r').sector → r = r') ∧
    (∀ r, (conf.place r).ddIdx ≠ (conf.place r).pdIdx ∧ (conf.place r).ddIdx < conf.raidDisks ∧
      (conf.place r).pdIdx < conf.raidDisks ∧
      (conf.place r).pdIdx = (conf.syncPlace (conf.place r).sector).pdIdx) ∧
    (∀ s s', s / conf.sectorsPerChunk = s' / conf.sectorsPerChunk →
      (conf.syncPlace s).pdIdx = (conf.syncPlace s').pdIdx) ∧
    ∀ size disk s, disk < conf.raidDisks → disk ≠ (conf.syncPlace s).pdIdx →
      s < size / (conf.dataDisks * conf.sectorsPerChunk) * conf.sectorsPerChunk →
      ∃ r < size, (conf.place r).ddIdx = disk ∧ (conf.place r).sector = s := by
  have h0 : 0 < conf.dataDisks := Nat.sub_pos_of_lt hn
  have hpos : 0 < conf.sectorsPerChunk := by
    rw [sectorsPerChunk]
    omega
  have hdeals : ∀ stripe, Deals conf.raidDisks _ _ := fun stripe ↦ selectDisks_deals conf stripe hn
  have hchunk : ∀ r, ∃ stripe d k, d < conf.dataDisks ∧ k < conf.sectorsPerChunk ∧
      r = (stripe * conf.dataDisks + d) * conf.sectorsPerChunk + k := fun r ↦
    ⟨_, _, _, Nat.mod_lt (r / conf.sectorsPerChunk) h0, Nat.mod_lt r hpos,
      by rw [Nat.div_add_mod', Nat.div_add_mod']⟩
  refine ⟨fun r r' hdd hsec ↦ ?_, fun r ↦ ?_, fun s s' hs ↦ ?_, fun size disk s hdisk hne hs ↦ ?_⟩
  · obtain ⟨stripe, d, k, hd, hk, rfl⟩ := hchunk r
    obtain ⟨stripe', d', k', hd', hk', rfl⟩ := hchunk r'
    rw [place_eq hd hk, place_eq hd' hk'] at hdd hsec
    obtain ⟨hdiv, hmod⟩ := div_mod_of_lt hk
    obtain ⟨hdiv', hmod'⟩ := div_mod_of_lt hk'
    rw [show stripe * conf.sectorsPerChunk + k = _ from hsec] at hdiv hmod
    obtain rfl : stripe = stripe' := hdiv.symm.trans hdiv'
    obtain rfl : k = k' := hmod.symm.trans hmod'
    rw [(hdeals stripe).2.injOn hd hd' hdd]
  · obtain ⟨stripe, d, k, hd, hk, rfl⟩ := hchunk r
    have hmem := (hdeals stripe).2.mapsTo hd
    rw [place_eq hd hk]
    exact ⟨hmem.2, hmem.1, (hdeals stripe).1, (syncPlace_pdIdx h0 hk).symm⟩
  · rw [← Nat.div_add_mod' s conf.sectorsPerChunk, ← Nat.div_add_mod' s' conf.sectorsPerChunk, hs,
      syncPlace_pdIdx h0 (Nat.mod_lt s hpos), syncPlace_pdIdx h0 (Nat.mod_lt s' hpos)]
  · have hk := Nat.mod_lt s hpos
    rw [← Nat.div_add_mod' s conf.sectorsPerChunk, syncPlace_pdIdx h0 hk] at hne
    obtain ⟨d, hd, rfl⟩ := (hdeals _).2.surjOn ⟨hdisk, hne⟩
    refine ⟨_, lt_of_lt_div hd hk ((Nat.div_lt_iff_lt_mul hpos).2 hs), by rw [place_eq hd hk], ?_⟩
    rw [place_eq hd hk, Nat.div_add_mod']

/-- Five disks with the usual layout and chunks of 64 KiB. -/
theorem place_bijective_five : (Conf.mk 65536 5 .leftSymmetric 5).place 700 = ⟨0, 3, 188⟩ ∧
    ∀ r, ((Conf.mk 65536 5 .leftSymmetric 5).place r).ddIdx = 0 →
      ((Conf.mk 65536 5 .leftSymmetric 5).place r).sector = 188 → r = 700 :=
  ⟨by decide, fun r ↦ (place_bijective (.mk _ _ _ _) (by decide) (by decide)).1 r 700⟩

end Conf

end Linux24.Raid5
