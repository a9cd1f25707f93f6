import Redx.Library.Machine
import Mathlib.Data.List.Induction
import Mathlib.Logic.Function.Basic

/-!
# The VCPU table of a domain

The constructor of a `DomainInfo` maps an array for the VCPUs that the domain has then. An update
changes their number and fills the array, which stays as it is.
-/
namespace Redx.Hypercall
open Library

/-- `sizeof(Xen::VcpuInfo*)` -/
def sizeofPointer : ℕ := 8

/-- `struct xen_domctl_getdomaininfo` -/
structure GetDomainInfo where
  domain : UInt16
  flags : UInt32
  totPages : UInt64
  maxPages : UInt64
  cpuTime : UInt64
  nrOnlineVcpus : UInt32
  maxVcpuId : UInt32
  handle : List UInt8
  deriving DecidableEq, Repr

/-- `Xen::VcpuInfo` -/
structure VcpuInfo where
  vcpu : UInt32
  cpuTime : UInt64
  cpu : UInt32
  online : Bool
  blocked : Bool
  running : Bool
  deriving DecidableEq, Repr

/-- `Xen::DomainInfo`, with what the system knows of the array: the size asked of `mmap` and
whether it was mapped, and the indices at which `probe_vcpus` has used it. -/
structure DomainInfo where
  info : GetDomainInfo
  vcpuCount : ℤ
  vcpu : ℕ → Option VcpuInfo
  size : ℕ
  mapped : Bool
  used : List ℕ

/-- A call of `update`: what Xen says of the domain, and its answer at each index, where it is
asked for the VCPU with a number. -/
structure Update where
  info : GetDomainInfo
  reply : ℕ → UInt32 → VcpuInfo

/-- `max_vcpu_id + 1`, which is computed in 32 bits and stored in an `int`. -/
def count (maxVcpuId : UInt32) : ℤ := toInt (maxVcpuId + 1).toNat

/-- `sizeof(Xen::VcpuInfo*) * _vcpu_count` -/
def arraySize (vcpuCount : ℤ) : ℕ := toSize (sizeofPointer * vcpuCount)

/-- The constructor; `mmap` tells which sizes get mapped. An anonymous mapping is all NULL. -/
def construct (mmap : ℕ → Bool) (info : GetDomainInfo) : DomainInfo where
  info := info
  vcpuCount := count info.maxVcpuId
  vcpu := fun _ => none
  size := arraySize (count info.maxVcpuId)
  mapped := mmap (arraySize (count info.maxVcpuId))
  used := []

/-- One pass of the loop of `probe_vcpus`. -/
def probe (reply : ℕ → UInt32 → VcpuInfo) (s : DomainInfo) (i : ℕ) : DomainInfo :=
  let number :=
    match s.vcpu i with
    | none => UInt32.ofNat i
    | some info => info.vcpu
  { s with vcpu := Function.update s.vcpu i (some (reply i number)), used := s.used ++ [i] }

def probeVcpus (reply : ℕ → UInt32 → VcpuInfo) (s : DomainInfo) : DomainInfo :=
  (List.range s.vcpuCount.toNat).foldl (probe reply) s

/-- `DomainInfo::update`, which keeps `domain` and `handle`. -/
def update (s : DomainInfo) (u : Update) : DomainInfo :=
  probeVcpus u.reply { s with
    info := { u.info with domain := s.info.domain, handle := s.info.handle }
    vcpuCount := count u.info.maxVcpuId }

/-- What `vcpu_time` comes to. -/
inductive Time where
  | returned (time : UInt64)
  | nullDereferenced
  deriving DecidableEq, Repr

def vcpuTime (s : DomainInfo) (id : UInt32) : Time :=
  if id > s.info.maxVcpuId then .returned 0
  else
    match s.vcpu id.toNat with
    | none => .nullDereferenced
    | some info => .returned info.cpuTime

/-- The size that the destructor unmaps. -/
def unmapSize (s : DomainInfo) : ℕ := arraySize s.vcpuCount

/-- The number of entries that are mapped. -/
def capacity (s : DomainInfo) : ℕ := if s.mapped then s.size / sizeofPointer else 0

/-- A domain after its construction and some updates. -/
def run (mmap : ℕ → Bool) (info : GetDomainInfo) (updates : List Update) : DomainInfo :=
  updates.foldl update (construct mmap info)

/-- All indices are in the array, also those `vcpu_time` would use, it would find no NULL, and the
destructor would unmap what was mapped. -/
structure Safe (s : DomainInfo) : Prop where
  probed : ∀ i ∈ s.used, i < capacity s
  timed : ∀ id : UInt32, id ≤ s.info.maxVcpuId → id.toNat < capacity s
  notNull : ∀ id, vcpuTime s id ≠ .nullDereferenced
  unmapped : unmapSize s = s.size

/-- The array is mapped, the last update is to the first `max_vcpu_id` again, and none is to a
larger one, apart from those that an `int` does not count up to. -/
def Steady (mmap : ℕ → Bool) (info : GetDomainInfo) (updates : List Update) : Prop :=
  mmap (arraySize (count info.maxVcpuId)) = true ∧ info.maxVcpuId.toNat < 2 ^ 31 - 1 ∧
    updates.getLast?.map (·.info.maxVcpuId) = some info.maxVcpuId ∧
    ∀ u ∈ updates, u.info.maxVcpuId ≤ info.maxVcpuId ∨ 2 ^ 31 - 1 ≤ u.info.maxVcpuId.toNat

variable {mmap : ℕ → Bool} {info : GetDomainInfo} {updates : List Update} {s : DomainInfo}
  {reply : ℕ → UInt32 → VcpuInfo} {m : UInt32}

theorem count_emod (m : UInt32) : count m % 2 ^ 32 = (m.toNat + 1) % 2 ^ 32 := by
  rw [count, toInt_emod, UInt32.toNat_add]
  simp

theorem count_of_lt (h : m.toNat < 2 ^ 31 - 1) : count m = m.toNat + 1 := by
  have hm : (m + 1).toNat = m.toNat + 1 := by
    rw [UInt32.toNat_add]
    exact Nat.mod_eq_of_lt (show m.toNat + 1 < 2 ^ 32 by omega)
  rw [count, hm, toInt_eq_self (by omega) (by omega)]
  omega

/-- From 2^31 - 1 on the count is not positive. -/
theorem count_of_ge (h : 2 ^ 31 - 1 ≤ m.toNat) : count m ≤ 0 := by
  have hmod := count_emod m
  have hrange := toInt_range (m + 1).toNat
  have hlt := m.toNat_lt
  unfold count at *
  omega

theorem count_inj {m m' : UInt32} (h : count m = count m') : m = m' := by
  have hm := count_emod m
  have hm' := count_emod m'
  have hlt := m.toNat_lt
  have hlt' := m'.toNat_lt
  apply UInt32.toNat_inj.mp
  omega

attribute [irreducible] count

theorem arraySize_inj {c c' : ℤ} (hc : -2 ^ 31 ≤ c ∧ c < 2 ^ 31) (hc' : -2 ^ 31 ≤ c' ∧ c' < 2 ^ 31)
    (h : arraySize c = arraySize c') : c = c' := by
  unfold arraySize toSize sizeofPointer at h
  omega

theorem arraySize_of_nonneg {c : ℤ} (h₀ : 0 ≤ c) (h : c < 2 ^ 31) :
    arraySize c / sizeofPointer = c.toNat := by
  unfold arraySize sizeofPointer
  rw [toSize_eq_self (by omega) (by omega)]
  omega

/-- The loop fills the first entries, and leaves the others. -/
theorem foldl_probe (reply : ℕ → UInt32 → VcpuInfo) (s : DomainInfo) (n : ℕ) :
    let t := (List.range n).foldl (probe reply) s
    t.used = s.used ++ List.range n ∧ t.info = s.info ∧ t.vcpuCount = s.vcpuCount ∧
      t.size = s.size ∧ t.mapped = s.mapped ∧
      ∀ i, (t.vcpu i).isSome = true ↔ i < n ∨ (s.vcpu i).isSome = true := by
  induction n with
  | zero => simp
  | succ n ih =>
    obtain ⟨hused, hinfo, hcount, hsize, hmapped, hvcpu⟩ := ih
    rw [List.range_succ, List.foldl_append, List.foldl_cons, List.foldl_nil]
    refine ⟨?_, hinfo, hcount, hsize, hmapped, fun i => ?_⟩
    · rw [probe, hused, List.append_assoc]
    · by_cases hi : i = n
      · subst hi
        simp [probe]
      · rw [probe]
        simp only [Function.update_of_ne hi, hvcpu]
        have hlt : i < n + 1 ↔ i < n := by omega
        rw [hlt]

/-- Some update comes to the index. -/
def Probed (updates : List Update) (i : ℕ) : Prop :=
  ∃ u ∈ updates, (i : ℤ) < count u.info.maxVcpuId

/-- What holds of a domain after some updates, the last of them to a `max_vcpu_id`. -/
structure After (mmap : ℕ → Bool) (info : GetDomainInfo) (updates : List Update) (m : UInt32)
    (s : DomainInfo) : Prop where
  maxVcpuId : s.info.maxVcpuId = m
  vcpuCount : s.vcpuCount = count m
  size : s.size = arraySize (count info.maxVcpuId)
  mapped : s.mapped = mmap (arraySize (count info.maxVcpuId))
  used : ∀ i, i ∈ s.used ↔ Probed updates i
  filled : ∀ i, (s.vcpu i).isSome = true ↔ Probed updates i

theorem after_construct (mmap : ℕ → Bool) (info : GetDomainInfo) :
    After mmap info [] info.maxVcpuId (construct mmap info) where
  maxVcpuId := by rw [construct]
  vcpuCount := by rw [construct]
  size := by rw [construct]
  mapped := by rw [construct]
  used := fun i => by simp [construct, Probed]
  filled := fun i => by simp [construct, Probed]

/-- What `update` hands to `probe_vcpus`. -/
def refreshed (s : DomainInfo) (u : Update) : DomainInfo :=
  { s with
    info := { u.info with domain := s.info.domain, handle := s.info.handle }
    vcpuCount := count u.info.maxVcpuId }

theorem update_eq_foldl (s : DomainInfo) (u : Update) :
    update s u = (List.range (count u.info.maxVcpuId).toNat).foldl (probe u.reply)
      (refreshed s u) := by
  rw [update, probeVcpus, refreshed]

theorem probed_append (updates : List Update) (u : Update) (i : ℕ) :
    Probed (updates ++ [u]) i ↔ i < (count u.info.maxVcpuId).toNat ∨ Probed updates i := by
  simp only [Probed, List.mem_append, List.mem_singleton, or_and_right, exists_or,
    exists_eq_left, Int.lt_toNat]
  exact or_comm

theorem After.update (h : After mmap info updates m s) (u : Update) :
    After mmap info (updates ++ [u]) u.info.maxVcpuId (update s u) := by
  obtain ⟨hused, hinfo, hcount, hsize, hmapped, hvcpu⟩ :=
    foldl_probe u.reply (refreshed s u) (count u.info.maxVcpuId).toNat
  rw [update_eq_foldl]
  refine ⟨?_, ?_, ?_, ?_, fun i => ?_, fun i => ?_⟩
  · rw [hinfo, refreshed]
  · rw [hcount, refreshed]
  · rw [hsize, refreshed, h.size]
  · rw [hmapped, refreshed, h.mapped]
  · rw [probed_append, hused, List.mem_append, List.mem_range, refreshed, h.used]
    exact or_comm
  · rw [probed_append, hvcpu, refreshed, h.filled]

/-- The `max_vcpu_id` after some updates. -/
def lastId (info : GetDomainInfo) (updates : List Update) : UInt32 :=
  (updates.getLast?.map (·.info.maxVcpuId)).getD info.maxVcpuId

theorem after_run (mmap : ℕ → Bool) (info : GetDomainInfo) (updates : List Update) :
    After mmap info updates (lastId info updates) (run mmap info updates) := by
  induction updates using List.reverseRecOn with
  | nil =>
    rw [run, List.foldl_nil, lastId, List.getLast?_nil, Option.map_none, Option.getD_none]
    exact after_construct mmap info
  | append_singleton updates u ih =>
    rw [run, List.foldl_append, List.foldl_cons, List.foldl_nil, lastId, List.getLast?_concat,
      Option.map_some, Option.getD_some, ← run]
    exact ih.update u

theorem vcpuTime_ne_iff (s : DomainInfo) :
    (∀ id, vcpuTime s id ≠ .nullDereferenced) ↔
      ∀ id : UInt32, id ≤ s.info.maxVcpuId → (s.vcpu id.toNat).isSome = true := by
  refine forall_congr' fun id => ?_
  unfold vcpuTime
  by_cases hid : id ≤ s.info.maxVcpuId
  · rw [if_neg (UInt32.not_lt.mpr hid)]
    cases s.vcpu id.toNat with
    | none => simp [hid]
    | some info => simp
  · rw [if_pos (UInt32.not_le.mp hid)]
    simp [hid]

theorem capacity_of_mapped (hmapped : s.mapped = true) (hsize : s.size = arraySize (count m))
    (hm : m.toNat < 2 ^ 31 - 1) : capacity s = m.toNat + 1 := by
  have hcount := count_of_lt hm
  rw [capacity, if_pos hmapped, hsize, arraySize_of_nonneg (by omega) (by omega)]
  omega

/-- In a steady run the updates come to all indices up to the first `max_vcpu_id`. -/
theorem probed_of_steady (h : Steady mmap info updates) (i : ℕ) :
    Probed updates i ↔ i ≤ info.maxVcpuId.toNat := by
  obtain ⟨-, hfirst, hlast, hupdates⟩ := h
  constructor
  · rintro ⟨u, hu, hi⟩
    rcases hupdates u hu with hle | hlarge
    · have hle' := UInt32.le_iff_toNat_le.mp hle
      have hcount := count_of_lt (m := u.info.maxVcpuId) (by omega)
      omega
    · have hcount := count_of_ge hlarge
      omega
  · intro hi
    obtain ⟨u, hu, hm⟩ := Option.map_eq_some_iff.mp hlast
    have hcount := count_of_lt hfirst
    refine ⟨u, List.mem_of_getLast? hu, ?_⟩
    rw [hm]
    omega

theorem steady_safe (h : Steady mmap info updates) : Safe (run mmap info updates) := by
  have hafter := after_run mmap info updates
  have hid : lastId info updates = info.maxVcpuId := by
    rw [lastId, h.2.2.1, Option.getD_some]
  rw [hid] at hafter
  have hcapacity := capacity_of_mapped (hafter.mapped.trans h.1) hafter.size h.2.1
  have hle {id : UInt32} (hmax : id ≤ (run mmap info updates).info.maxVcpuId) :
      id.toNat ≤ info.maxVcpuId.toNat := by
    rw [hafter.maxVcpuId] at hmax
    exact UInt32.le_iff_toNat_le.mp hmax
  refine ⟨fun i hi => ?_, fun id hmax => ?_, (vcpuTime_ne_iff _).mpr fun id hmax => ?_, ?_⟩
  · have := (probed_of_steady h i).mp ((hafter.used i).mp hi)
    omega
  · have := hle hmax
    omega
  · exact (hafter.filled _).mpr ((probed_of_steady h _).mpr (hle hmax))
  · rw [unmapSize, hafter.vcpuCount, hafter.size]

theorem safe_steady (h : Safe (run mmap info updates)) : Steady mmap info updates := by
  have hafter := after_run mmap info updates
  have hrange (m : UInt32) : -2 ^ 31 ≤ count m ∧ count m < 2 ^ 31 := by
    unfold count
    exact toInt_range _
  -- the destructor undoes the mapping only at the first count
  have hid : lastId info updates = info.maxVcpuId := by
    have hsize := h.unmapped
    rw [unmapSize, hafter.vcpuCount, hafter.size] at hsize
    exact count_inj (arraySize_inj (hrange _) (hrange _) hsize)
  rw [hid] at hafter
  -- `vcpu_time` uses index 0, and all up to the first `max_vcpu_id`, so that they are filled
  have hpos : 0 < capacity (run mmap info updates) :=
    h.timed 0 (UInt32.le_iff_toNat_le.mpr (Nat.zero_le _))
  have hmapped : (run mmap info updates).mapped = true := by
    by_contra hnot
    rw [capacity, if_neg hnot] at hpos
    exact Nat.lt_irrefl 0 hpos
  obtain ⟨u, hu, hlast⟩ : Probed updates info.maxVcpuId.toNat := by
    have hfilled := (vcpuTime_ne_iff _).mp h.notNull _ (UInt32.le_refl _)
    rw [hafter.maxVcpuId] at hfilled
    exact (hafter.filled _).mp hfilled
  have hfirst : info.maxVcpuId.toNat < 2 ^ 31 - 1 := by
    have := (hrange u.info.maxVcpuId).2
    omega
  have hcapacity := capacity_of_mapped hmapped hafter.size hfirst
  refine ⟨hafter.mapped ▸ hmapped, hfirst, ?_, fun v hv => ?_⟩
  · cases hupdates : updates.getLast? with
    | none =>
      rw [List.getLast?_eq_none_iff.mp hupdates] at hu
      cases hu
    | some w =>
      rw [lastId, hupdates] at hid
      exact congrArg some hid
  · rcases Nat.lt_or_ge v.info.maxVcpuId.toNat (2 ^ 31 - 1) with hlt | hge
    · have hcount := count_of_lt hlt
      have hused := (hafter.used v.info.maxVcpuId.toNat).mpr ⟨v, hv, by omega⟩
      have hin := h.probed _ hused
      exact .inl (UInt32.le_iff_toNat_le.mpr (by omega))
    · exact .inr hge

/-- A run is safe just when it is steady. -/
theorem safe_run_iff (mmap : ℕ → Bool) (info : GetDomainInfo) (updates : List Update) :
    Safe (run mmap info updates) ↔ Steady mmap info updates :=
  ⟨safe_steady, steady_safe⟩

/-- A domain with two VCPUs. -/
def twoVcpus : GetDomainInfo := ⟨1, 0, 65536, 65536, 0, 2, 1, List.replicate 16 0⟩

/-- An update to another `max_vcpu_id`. -/
def updateTo (m : UInt32) : Update where
  info := { twoVcpus with maxVcpuId := m }
  reply := fun _ number => ⟨number, 0, 0, true, false, true⟩

/-- With a third VCPU the update uses index 2 of an array of two entries, and the destructor
unmaps 24 bytes of 16. Before the first update there are only NULLs. -/
theorem grown_not_safe : ¬ Safe (run (fun size => size != 0) twoVcpus [updateTo 2]) ∧
    2 ∈ (run (fun size => size != 0) twoVcpus [updateTo 2]).used ∧
    capacity (run (fun size => size != 0) twoVcpus [updateTo 2]) = 2 ∧
    unmapSize (run (fun size => size != 0) twoVcpus [updateTo 2]) = 24 ∧
    vcpuTime (run (fun size => size != 0) twoVcpus []) 0 = .nullDereferenced := by
  have hused : 2 ∈ (run (fun size => size != 0) twoVcpus [updateTo 2]).used := by decide +kernel
  have hcapacity : capacity (run (fun size => size != 0) twoVcpus [updateTo 2]) = 2 := by
    decide +kernel
  exact ⟨fun h => absurd (h.probed 2 hused) (by rw [hcapacity]; decide), hused, hcapacity,
    by decide +kernel, by decide +kernel⟩

end Redx.Hypercall
