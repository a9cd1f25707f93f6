import Redx.Allocator.Live
import Redx.Allocator.Usage
import Mathlib.Data.List.Count

/-!
# Set bits and live objects

In a run of requests and of releases of live objects, the set bits of each pool and its live
objects make up its 512 slots. This holds of all sizes, also of those that `size_t` cannot hold
512 times: the slots of such a pool need not lie in its zone, but their addresses do once they are
reduced modulo 2^55, and that tells which pool an object is from.
-/
namespace Redx.Allocator
open Library

/-- Requests of the sizes admitted and releases of live objects, which return normally. -/
inductive Uses (k : Kernel) (heap : ℕ) (admits : ℕ → Prop) : Heap → Call → Heap → Prop
  | new {s : Heap} {w : World} {fuel n a : ℕ} : admits n →
      operatorNew k heap fuel s.world n = some (.ok a, w) →
      Uses k heap admits s (.new n) ⟨w, (a, n) :: s.live⟩
  | delete {s : Heap} {w : World} {fuel n a : ℕ} : (a, n) ∈ s.live →
      operatorDelete heap fuel s.world a = some (.ok (), w) →
      Uses k heap admits s (.delete a) ⟨w, s.live.erase (a, n)⟩

/-- The object is one of the slots of the pool. -/
def MemPool.Holds (p : MemPool) (o : ℕ × ℕ) : Prop := o.2 = p.size ∧ ∃ i < count, o.1 = p.slot i

instance MemPool.decidableHolds (p : MemPool) (o : ℕ × ℕ) : Decidable (p.Holds o) :=
  inferInstanceAs (Decidable (_ ∧ _))

/-- The number of live objects in a pool. -/
def MemPool.liveCount (p : MemPool) (live : List (ℕ × ℕ)) : ℕ := live.countP fun o => p.Holds o

/-- The zones lie below a modulus, and modulo it each slot lies in the zone of its pool. -/
def Laid (modulus : ℕ) (used : List (ℕ × MemPool)) : Prop :=
  ∀ x ∈ used, x.2.start + x.2.zone.length ≤ modulus ∧
    ∀ i < count, x.2.zone.Contains (x.2.slot i % modulus)

/-- The bits of the pools are in step with the live objects. -/
structure Tally (admits : ℕ → Prop) (live : List (ℕ × ℕ)) (used : List (ℕ × MemPool)) : Prop where
  sized : ∀ x ∈ used, admits x.2.size
  owned : ∀ o ∈ live, ∃ x ∈ used, x.2.Holds o
  counted : ∀ x ∈ used, x.2.setBits + x.2.liveCount live = count

variable {k : Kernel} {admits : ℕ → Prop} {w w' : World} {heap tail a b n i modulus : ℕ}
  {l₁ l₂ used : List (ℕ × MemPool)} {live : List (ℕ × ℕ)} {q q' : MemPool} {o : ℕ × ℕ}

theorem Tally.initial : Tally admits [] [] := ⟨by simp, by simp, by simp⟩

theorem MemPool.holds_congr (hq : q' = { q with map := q'.map }) : q'.Holds o ↔ q.Holds o := by
  rw [hq]
  rfl

theorem MemPool.liveCount_congr (hq : q' = { q with map := q'.map }) :
    q'.liveCount live = q.liveCount live :=
  List.countP_congr fun _ _ => by simp [MemPool.holds_congr hq]

theorem MemPool.setBits_take (hi : i < count) (hfree : q.isFree i = true)
    (hbits : ∀ j, q'.isFree j = (q.isFree j && decide (j ≠ i))) : q'.setBits + 1 = q.setBits := by
  obtain ⟨s, t, hst⟩ := List.append_of_mem (List.mem_range.mpr hi)
  have hnodup : (s ++ i :: t).Nodup := hst ▸ List.nodup_range
  have hsame : ∀ j ∈ s ++ t, q'.isFree j = q.isFree j := by
    intro j hj
    have hne : j ≠ i := by
      rintro rfl
      exact (List.nodup_middle.mp hnodup).notMem hj
    rw [hbits, decide_eq_true hne, Bool.and_true]
  have hclear : q'.isFree i = false := by
    rw [hbits, decide_eq_false (by simp), Bool.and_false]
  have hs : s.countP q'.isFree = s.countP q.isFree :=
    List.countP_congr fun j hj => by rw [hsame j (List.mem_append_left _ hj)]
  have ht : t.countP q'.isFree = t.countP q.isFree :=
    List.countP_congr fun j hj => by rw [hsame j (List.mem_append_right _ hj)]
  rw [setBits, setBits, hst, List.countP_append, List.countP_append, List.countP_cons_of_pos hfree,
    List.countP_cons_of_neg (by rw [hclear]; exact Bool.false_ne_true), hs, ht]
  omega

theorem MemPool.setBits_release (hi : i < count) (hfree : q.isFree i = false)
    (hbits : ∀ j, q'.isFree j = (q.isFree j || decide (j = i))) : q'.setBits = q.setBits + 1 := by
  refine (setBits_take hi ?_ fun j => ?_).symm
  · rw [hbits, decide_eq_true rfl, Bool.or_true]
  · rw [hbits]
    by_cases hj : j = i
    · subst hj
      simp [hfree]
    · simp [hj]

theorem MemPool.setBits_opened (hopen : ∀ i < count, q.isFree i = true) : q.setBits = count := by
  rw [setBits, List.countP_eq_length.mpr fun i hi => hopen i (List.mem_range.mp hi),
    List.length_range]

/-- An object is a slot of one pool at most. -/
theorem Chain.holds_unique (hc : Chain w heap used tail) (hl : Laid modulus used)
    {x y : ℕ × MemPool} (hx : x ∈ used) (hy : y ∈ used) (hox : x.2.Holds o) (hoy : y.2.Holds o) :
    x = y := by
  obtain ⟨-, i, hi, hxi⟩ := hox
  obtain ⟨-, j, hj, hyj⟩ := hoy
  exact hc.zone_unique hx hy (hxi ▸ (hl x hx).2 i hi) (hyj ▸ (hl y hy).2 j hj)

/-- An object of a pool that is released in the range of another is an object of that one. -/
theorem Chain.holds_released (hc : Chain w heap used tail) (hl : Laid modulus used)
    {x y : ℕ × MemPool} (hx : x ∈ used) (hy : y ∈ used) (hox : x.2.Holds (a, n))
    (hlo : y.2.start ≤ a) (hhi : a < y.2.start + y.2.length) : x = y := by
  obtain ⟨-, i, hi, hxi⟩ := hox
  have hzone := y.2.length_le_zone
  have hbound := (hl y hy).1
  have hmod : a % modulus = a := Nat.mod_eq_of_lt (by omega)
  have hxa := (hl x hx).2 i hi
  rw [← hxi, hmod] at hxa
  exact hc.zone_unique hx hy hxa ⟨hlo, by
    change a < y.2.start + y.2.zone.length
    omega⟩

theorem forall_middle {P : ℕ × MemPool → Prop} {x : ℕ × MemPool} :
    (∀ y ∈ l₁ ++ x :: l₂, P y) ↔ P x ∧ ∀ y ∈ l₁ ++ l₂, P y := by
  simp only [List.forall_mem_append, List.forall_mem_cons]
  exact and_left_comm

theorem laid_congr (hq : q' = { q with map := q'.map }) :
    Laid modulus (l₁ ++ (b, q') :: l₂) ↔ Laid modulus (l₁ ++ (b, q) :: l₂) := by
  unfold Laid
  rw [forall_middle, forall_middle, hq]
  exact Iff.rfl

theorem Tally.address_lt (ht : Tally admits live used) (ho : o ∈ live) : o.1 < 2 ^ 64 := by
  obtain ⟨x, -, -, i, -, heq⟩ := ht.owned o ho
  exact heq ▸ Nat.mod_lt _ (by decide)

/-- A pool that is all free joins the chain. -/
theorem Tally.open (ht : Tally admits live used) (hc : Chain w heap (used ++ [(b, q)]) tail)
    (hl : Laid modulus (used ++ [(b, q)])) (hadmits : admits q.size)
    (hopen : ∀ i < count, q.isFree i = true) : Tally admits live (used ++ [(b, q)]) := by
  have hmem : (b, q) ∈ used ++ [(b, q)] := List.mem_append_right _ List.mem_cons_self
  refine ⟨?_, fun o ho => ?_, ?_⟩
  · rw [forall_middle, List.append_nil]
    exact ⟨hadmits, ht.sized⟩
  · obtain ⟨x, hx, hox⟩ := ht.owned o ho
    exact ⟨x, List.mem_append_left _ hx, hox⟩
  · rw [forall_middle, List.append_nil]
    refine ⟨?_, ht.counted⟩
    have hnone : q.liveCount live = 0 := by
      refine List.countP_eq_zero.mpr fun o ho hheld => ?_
      obtain ⟨x, hx, hox⟩ := ht.owned o ho
      have heq := hc.holds_unique hl (List.mem_append_left _ hx) hmem hox (of_decide_eq_true hheld)
      exact hc.ne_middle (by rwa [List.append_nil]) heq
    rw [MemPool.setBits_opened hopen, hnone, Nat.add_zero]

/-- One pool and the objects in it change. -/
theorem Tally.middle {live' : List (ℕ × ℕ)} (ht : Tally admits live (l₁ ++ (b, q) :: l₂))
    (hq : q' = { q with map := q'.map }) (howned : ∀ o ∈ live', o ∈ live ∨ q.Holds o)
    (hrest : ∀ x ∈ l₁ ++ l₂, x.2.liveCount live' = x.2.liveCount live)
    (hcounted : q'.setBits + q.liveCount live' = count) :
    Tally admits live' (l₁ ++ (b, q') :: l₂) := by
  obtain ⟨hsized, hsized'⟩ := forall_middle.mp ht.sized
  obtain ⟨-, hcounted'⟩ := forall_middle.mp ht.counted
  refine ⟨forall_middle.mpr ⟨?_, hsized'⟩, fun o ho => ?_, forall_middle.mpr ⟨?_, fun x hx => ?_⟩⟩
  · rw [hq]
    exact hsized
  · have hmiddle {x : ℕ × MemPool} (hx : x ∈ l₁ ++ (b, q) :: l₂) (hox : x.2.Holds o) :
        ∃ x ∈ l₁ ++ (b, q') :: l₂, x.2.Holds o := by
      rw [List.mem_append, List.mem_cons] at hx
      rcases hx with hx | rfl | hx
      · exact ⟨x, List.mem_append_left _ hx, hox⟩
      · exact ⟨(b, q'), by simp, (MemPool.holds_congr hq).mpr hox⟩
      · exact ⟨x, List.mem_append_right _ (List.mem_cons_of_mem _ hx), hox⟩
    rcases howned o ho with hlive | hheld
    · obtain ⟨x, hx, hox⟩ := ht.owned o hlive
      exact hmiddle hx hox
    · exact hmiddle (x := (b, q)) (by simp) hheld
  · rw [MemPool.liveCount_congr hq]
    exact hcounted
  · rw [hrest x hx]
    exact hcounted' x hx

/-- The objects of a pool are in no other. -/
theorem Chain.not_holds (hc : Chain w heap (l₁ ++ (b, q) :: l₂) tail)
    (hl : Laid modulus (l₁ ++ (b, q) :: l₂)) (ho : q.Holds o) {x : ℕ × MemPool}
    (hx : x ∈ l₁ ++ l₂) : ¬ x.2.Holds o := by
  intro hox
  have hx' : x ∈ l₁ ++ (b, q) :: l₂ := by
    rcases List.mem_append.mp hx with h | h <;> simp [h]
  exact hc.ne_middle hx (hc.holds_unique hl hx' (y := (b, q)) (by simp) hox ho)

/-- A request that is served adds an object to one pool, which loses a bit. -/
theorem Tally.new (ht : Tally admits live used) (hc : Chain w heap used tail) (hn : admits n)
    (h : Serves k w tail used n a w')
    (hlaid : ∀ {used' tail'}, Chain w' heap used' tail' → (∀ x ∈ used', admits x.2.size) →
      Laid modulus used') :
    ∃ used' tail', Chain w' heap used' tail' ∧ Tally admits ((a, n) :: live) used' := by
  obtain ⟨l₁, b, q, q', l₂, tail', hc', rfl, hfree, rfl, hq, hbits, hold⟩ := h.takes hc (h.pos hc)
  generalize nextSlot q.size used = i at *
  have hi := MemPool.isFree_lt hfree
  have hback : q = { q' with map := q.map } := by rw [hq]
  have hcq := hc'.setMap hback
  -- the tally before the bit is cleared, in the chain that the pool may have joined
  have hbefore : Laid modulus (l₁ ++ (b, q) :: l₂) ∧ Tally admits live (l₁ ++ (b, q) :: l₂) := by
    have hsized : ∀ x ∈ l₁ ++ (b, q') :: l₂, admits x.2.size := by
      refine forall_middle.mpr ⟨by rw [hq]; exact hn, fun x hx => ?_⟩
      have hx' : x ∈ l₁ ++ (b, q) :: l₂ := by
        rcases List.mem_append.mp hx with h | h <;> simp [h]
      rcases hold with rfl | ⟨hold, -⟩
      · exact ht.sized x hx'
      · rw [hold] at hx'
        rcases List.mem_append.mp hx' with hused | hlast
        · exact ht.sized x hused
        · exact List.mem_singleton.mp hlast ▸ hn
    have hl := (laid_congr hq).mp (hlaid hc' hsized)
    refine ⟨hl, ?_⟩
    rcases hold with rfl | ⟨hold, hopen⟩
    · exact ht
    · rw [hold] at hcq hl ⊢
      exact ht.open hcq hl hn hopen
  obtain ⟨hl, hbefore⟩ := hbefore
  have hholds : q.Holds (q.slot i, q.size) := ⟨rfl, i, hi, rfl⟩
  refine ⟨_, _, hc', hbefore.middle hq (fun o ho => ?_) (fun x hx => ?_) ?_⟩
  · rcases List.mem_cons.mp ho with rfl | ho
    · exact .inr hholds
    · exact .inl ho
  · exact List.countP_cons_of_neg (by simpa using hcq.not_holds hl hholds hx)
  · have hcounted := hbefore.counted (b, q) (by simp)
    have htake := MemPool.setBits_take hi hfree hbits
    have hcons : q.liveCount ((q.slot i, q.size) :: live) = q.liveCount live + 1 :=
      List.countP_cons_of_pos (by simpa using hholds)
    dsimp only at hcounted
    omega

/-- A release takes an object from its pool, which gets a bit. -/
theorem Tally.delete (ht : Tally admits live used) (hc : Chain w heap used tail)
    (hl : Laid modulus used) (hlive : (a, n) ∈ live) (h : Releases w used a (.ok (), w')) :
    ∃ used' tail', Chain w' heap used' tail' ∧ Tally admits (live.erase (a, n)) used' := by
  cases h with
  | @freed l₁ l₂ b q q' hu hlo hhi hfree hq hbits =>
    subst hu
    have hmem : (b, q) ∈ l₁ ++ (b, q) :: l₂ := by simp
    obtain ⟨x, hx, hox⟩ := ht.owned _ hlive
    obtain rfl := hc.holds_released hl hx hmem hox hlo hhi
    have hi : (a - q.start) / q.size < count := by
      have hlen := q.length_le
      have hpos : 0 < q.size := Nat.pos_of_ne_zero (hc.sized _ hmem)
      exact (Nat.div_lt_iff_lt_mul hpos).mpr (by omega)
    refine ⟨_, _, hc.setMap hq, ht.middle hq (fun o ho => .inl (List.mem_of_mem_erase ho))
      (fun x hx => ?_) ?_⟩
    · have hnot := hc.not_holds hl hox hx
      rw [MemPool.liveCount, List.countP_erase, if_neg (by simp [hnot]), Nat.sub_zero]
      rfl
    · have hcounted := ht.counted _ hmem
      have hrelease := MemPool.setBits_release hi hfree hbits
      have herase : q.liveCount (live.erase (a, n)) = q.liveCount live - 1 := by
        rw [MemPool.liveCount, List.countP_erase, if_pos ⟨hlive, by simpa using hox⟩]
        rfl
      have hpos : 0 < q.liveCount live := List.countP_pos_iff.mpr ⟨_, hlive, by simpa using hox⟩
      dsimp only at hcounted
      omega

/-- What is known of the regions mapped is kept by requests and places the slots. -/
structure Layout (k : Kernel) (heap : ℕ) (admits : ℕ → Prop) (modulus : ℕ)
    (mapped : List Region → Prop) : Prop where
  laid : ∀ {w : World} {used : List (ℕ × MemPool)} {tail : ℕ}, mapped w.mapped →
    Chain w heap used tail → (∀ x ∈ used, admits x.2.size) → Laid modulus used
  serves : ∀ {w w' : World} {used : List (ℕ × MemPool)} {tail n a : ℕ}, mapped w.mapped →
    Serves k w tail used n a w' → mapped w'.mapped

/-- The state of the regions mapped, of the pools and of the live objects in step. -/
def Heap.Tallied (mapped : List Region → Prop) (admits : ℕ → Prop) (heap : ℕ) (s : Heap) : Prop :=
  mapped s.world.mapped ∧
    ∃ used tail, Chain s.world heap used tail ∧ Tally admits s.live used

theorem Heap.Tallied.initial {mapped : List Region → Prop} (hheap : heap ≠ 0)
    (hm : mapped (World.initial heap).mapped) : (Heap.initial heap).Tallied mapped admits heap :=
  ⟨hm, [], heap, Chain.initial hheap, .initial⟩

theorem Heap.Tallied.step {mapped : List Region → Prop} {s t : Heap} {e : Call}
    (hs : s.Tallied mapped admits heap) (hlayout : Layout k heap admits modulus mapped)
    (h : Uses k heap admits s e t) : t.Tallied mapped admits heap := by
  obtain ⟨hm, used, tail, hc, ht⟩ := hs
  have hlock : Chain { s.world with locked := true } heap used tail := hc.of_eq rfl rfl
  cases h with
  | @new _ fuel n a hn hcall =>
    obtain ⟨-, v, hv, rfl⟩ := locked_ok hcall
    have hserves := hlock.allocate_ok hv
    have hmv := hlayout.serves (w := { s.world with locked := true }) hm hserves
    obtain ⟨used', tail', hc', ht'⟩ := ht.new hlock hn hserves (hlayout.laid hmv)
    exact ⟨hmv, used', tail', hc'.of_eq rfl rfl, ht'⟩
  | @delete _ fuel n a hlive hcall =>
    obtain ⟨-, v, hv, rfl⟩ := locked_ok hcall
    have hreleases := hlock.free_releases (ht.address_lt hlive) hv
    have hmv : v.mapped = s.world.mapped := by
      cases hreleases with
      | freed => rfl
    obtain ⟨used', tail', hc', ht'⟩ :=
      ht.delete hlock (hlayout.laid hm hc ht.sized) hlive hreleases
    exact ⟨hmv ▸ hm, used', tail', hc'.of_eq rfl rfl, ht'⟩

/-- Without a hint `mmap` returns addresses of the lower half of a 48-bit address space. -/
def Kernel.UserSpace (k : Kernel) : Prop :=
  ∀ mapped length address, k.mmap mapped length = some address → address + length ≤ 2 ^ 47

/-- In the lower half all sizes are placed: the product of a size and an index is that of the
size modulo 2^55 and the index, up to a multiple of 2^55. -/
theorem Layout.user (huser : k.UserSpace) : Layout k heap admits (2 ^ 55)
    (fun mapped => ∀ r ∈ mapped, r.base + r.length ≤ 2 ^ 47) where
  laid := by
    intro w used tail hm hc _ x hx
    obtain ⟨-, hpos, -, hmem⟩ := hc.zoned x hx
    have hend := hm _ hmem
    have hzone : x.2.zone.length = x.2.size % 2 ^ 55 * count := by
      simp only [MemPool.zone, count]
      omega
    refine ⟨hend.trans (by decide), fun i hi => ?_⟩
    have hlt : i * (x.2.size % 2 ^ 55) < x.2.zone.length := by
      rw [hzone] at hpos ⊢
      rw [Nat.mul_comm]
      exact Nat.mul_lt_mul_of_pos_left hi (Nat.pos_of_mul_pos_right hpos)
    have hslot : x.2.slot i % 2 ^ 55 = x.2.start + i * (x.2.size % 2 ^ 55) := by
      have hmod : x.2.slot i % 2 ^ 55 = (x.2.start + i * (x.2.size % 2 ^ 55)) % 2 ^ 55 := by
        rw [MemPool.slot, Nat.mod_mod_of_dvd _ (by decide), Nat.add_mod, Nat.mul_mod,
          ← Nat.mod_mod x.2.size, ← Nat.mul_mod, ← Nat.add_mod, Nat.mod_mod]
      rw [hmod]
      exact Nat.mod_eq_of_lt (by dsimp only [MemPool.zone] at hend hlt; omega)
    rw [hslot]
    exact ⟨Nat.le_add_right _ _, Nat.add_lt_add_left hlt _⟩
  serves := by
    intro w w' used tail n a hm h
    cases h with
    | hit => exact hm
    | grown _ hz ho _ =>
      intro r hr
      simp only [World.setPool_mapped, World.map_mapped, List.mem_cons] at hr
      rcases hr with rfl | rfl | hr
      · exact huser _ _ _ ho
      · exact huser _ _ _ hz
      · exact hm r hr

/-- The sizes of requests: `operator new` takes a `size_t`. -/
def IsSize (n : ℕ) : Prop := n < 2 ^ 64

/-- What `available_slots` says of a pool with these live objects. -/
structure MemPool.Counts (p : MemPool) (live : List (ℕ × ℕ)) : Prop where
  bits : p.availableSlots.toNat = p.setBits
  slots : p.availableSlots.toNat = count - p.liveCount live
  within : p.liveCount live ≤ count

/-- The two figures of `usage` are those of the pool. -/
def Usage.Tells (u : Usage) (p : MemPool) : Prop :=
  u.available = (p.availableSlots.toNat * p.size : ℕ) ∧
    u.objects = (count - p.availableSlots.toNat : ℕ)

/-- Each pool's available slots are the set bits of its map and all but its live objects, and
`inject` and `usage` report them once for each pool, in the chain's order. -/
def Heap.Accounted (s : Heap) (heap : ℕ) : Prop :=
  ∃ used tail, Chain s.world heap used tail ∧
    (∀ o ∈ s.live, ∃ x ∈ used, x.2.Holds o) ∧
    (∀ x ∈ used, x.2.Counts s.live) ∧
    ∀ fuel, used.length < fuel →
      inject fuel s.world heap =
        some (.ok (used.map fun x => ⟨x.2.size, count, x.2.availableSlots.toNat⟩)) ∧
      ∃ figures, usage fuel s.world heap = some (.ok figures) ∧
        List.Forall₂ (fun u x => u.Tells x.2) figures used

/-- The free slots of each pool, all but its live objects, have fewer than 2^63 bytes. -/
def Heap.Countable (s : Heap) (heap : ℕ) : Prop :=
  ∀ used tail, Chain s.world heap used tail → ∀ x ∈ used,
    (count - x.2.liveCount s.live) * x.2.size < 2 ^ 63

theorem MemPool.counts (h : q.setBits + q.liveCount live = count) : q.Counts live where
  bits := q.sum_toNat
  slots := by
    have hsum : q.availableSlots.toNat = q.setBits := q.sum_toNat
    omega
  within := by omega

theorem MemPool.Counts.tells_iff (h : q.Counts live) :
    q.figures.Tells q ↔ (count - q.liveCount live) * q.size < 2 ^ 63 := by
  rw [Usage.Tells, and_iff_left q.figures_objects, q.figures_available_iff, h.slots]

theorem Heap.Tallied.accounted_iff_countable {mapped : List Region → Prop} {s : Heap}
    (hs : s.Tallied mapped admits heap) : s.Accounted heap ↔ s.Countable heap := by
  obtain ⟨-, used, tail, hc, ht⟩ := hs
  have hcounts : ∀ x ∈ used, x.2.Counts s.live := fun x hx => MemPool.counts (ht.counted x hx)
  constructor
  · rintro ⟨used', tail', hc', -, -, hreports⟩ used'' tail'' hc'' x hx
    obtain ⟨rfl, rfl⟩ := hc'.unique hc
    obtain ⟨rfl, rfl⟩ := hc''.unique hc'
    obtain ⟨-, figures, husage, htells⟩ := hreports _ (Nat.lt_succ_self _)
    rw [hc'.usage_eq (Nat.lt_succ_self _)] at husage
    obtain rfl := Except.ok.inj (Option.some.inj husage)
    rw [List.forall₂_map_left_iff, List.forall₂_same] at htells
    exact (hcounts x hx).tells_iff.mp (htells x hx)
  · intro hcountable
    refine ⟨used, tail, hc, ht.owned, hcounts, fun fuel hf => ⟨hc.inject_eq hf, _,
      hc.usage_eq hf, ?_⟩⟩
    rw [List.forall₂_map_left_iff, List.forall₂_same]
    exact fun x hx => (hcounts x hx).tells_iff.mpr (hcountable used tail hc x hx)

theorem reachable_tallied {s : Heap} (hheap : heap ≠ 0) (hstatic : heap + sizeofMemPool ≤ 2 ^ 47)
    (huser : k.UserSpace) (hr : Reachable (Uses k heap IsSize) (.initial heap) s) :
    s.Tallied (fun mapped => ∀ r ∈ mapped, r.base + r.length ≤ 2 ^ 47) IsSize heap := by
  have hm : ∀ r ∈ (World.initial heap).mapped, r.base + r.length ≤ 2 ^ 47 := by
    simpa [World.initial] using hstatic
  exact hr.invariant (Heap.Tallied.initial hheap hm) fun _ _ _ hs h => hs.step (.user huser) h

/-- In every state reached the accounts are right if and only if the free slots of no pool have
2^63 bytes or more, which no `long` holds. -/
theorem accounted_iff {s : Heap} (hheap : heap ≠ 0) (hstatic : heap + sizeofMemPool ≤ 2 ^ 47)
    (huser : k.UserSpace) (hr : Reachable (Uses k heap IsSize) (.initial heap) s) :
    s.Accounted heap ↔ s.Countable heap :=
  (reachable_tallied hheap hstatic huser hr).accounted_iff_countable

/-- The kernel that maps every region right after all earlier ones, in the lower half. -/
def Kernel.low : Kernel where
  mmap mapped length :=
    if mappedEnd mapped + length ≤ 2 ^ 47 then Kernel.bump.mmap mapped length else none
  fresh := by
    intro mapped length address h
    split at h
    · exact Kernel.bump.fresh h
    · cases h

theorem Kernel.low_userSpace : Kernel.low.UserSpace := by
  intro mapped length address h
  change (if _ then _ else none) = _ at h
  split at h
  · rename_i hfit
    change (if _ then _ else none) = _ at h
    split at h
    · exact Option.some.inj h ▸ hfit
    · cases h
  · cases h

/-- Two sizes, and a slot that is released and taken again. -/
theorem accounted_iff_low : ∃ s : Heap, s.live = [(4184, 24), (16560, 100)] ∧
    Reachable (Uses .low 4096 IsSize) (.initial 4096) s ∧
    (s.Accounted 4096 ↔ s.Countable 4096) := by
  obtain ⟨w₁, w₂, w₃, w₄, h₁, h₂, h₃, h₄⟩ : ∃ w₁ w₂ w₃ w₄,
      operatorNew .low 4096 1 (.initial 4096) 24 = some (.ok 4184, w₁) ∧
      operatorNew .low 4096 2 w₁ 100 = some (.ok 16560, w₂) ∧
      operatorDelete 4096 1 w₂ 4184 = some (.ok (), w₃) ∧
      operatorNew .low 4096 1 w₃ 24 = some (.ok 4184, w₄) := ⟨_, _, _, _, rfl, rfl, rfl, rfl⟩
  have hsize : IsSize 24 ∧ IsSize 100 := by
    unfold IsSize
    decide
  have hr : Reachable (Uses .low 4096 IsSize) (.initial 4096) _ :=
    Reachable.next ⟨[], .start⟩ (.new hsize.1 h₁)
  have hr := hr.next (.new hsize.2 h₂)
  have hr := hr.next (.delete (List.mem_cons_of_mem _ List.mem_cons_self) h₃)
  have hr := hr.next (.new hsize.1 h₄)
  exact ⟨_, rfl, hr, accounted_iff (by decide) (by decide) Kernel.low_userSpace hr⟩

/-- The size times 512 is 512 in a `size_t`, so that a small zone is mapped. `usage` reports a
negative number of available bytes. -/
theorem overflown_not_accounted :
    ((operatorNew .low 4096 1 (.initial 4096) (2 ^ 55 + 1)).bind fun x => usage 2 x.2 4096) =
      some (.ok [⟨2 ^ 55 + 1, 512, -36028797018963457, 1⟩]) ∧
    ∃ s : Heap, s.live = [(4184, 2 ^ 55 + 1)] ∧
      Reachable (Uses .low 4096 IsSize) (.initial 4096) s ∧ ¬ s.Accounted 4096 := by
  obtain ⟨w, hcall⟩ : ∃ w, operatorNew .low 4096 1 (.initial 4096) (2 ^ 55 + 1) =
      some (.ok 4184, w) := ⟨_, rfl⟩
  have hsize : IsSize (2 ^ 55 + 1) := by
    unfold IsSize
    decide
  have hr : Reachable (Uses .low 4096 IsSize) (.initial 4096) ⟨w, [(4184, 2 ^ 55 + 1)]⟩ :=
    Reachable.next ⟨[], .start⟩ (.new hsize hcall)
  have hs := reachable_tallied (by decide) (by decide) Kernel.low_userSpace hr
  refine ⟨by decide +kernel, _, rfl, hr, fun haccounted => ?_⟩
  have hcountable := hs.accounted_iff_countable.mp haccounted
  obtain ⟨-, used, tail, hc, ht⟩ := hs
  obtain ⟨x, hx, hheld, -⟩ := ht.owned _ List.mem_cons_self
  have hlt := hcountable used tail hc x hx
  have hlive : x.2.liveCount [(4184, 2 ^ 55 + 1)] ≤ 1 := List.countP_le_length
  have hslots : 511 * (2 ^ 55 + 1) ≤ (count - x.2.liveCount [(4184, 2 ^ 55 + 1)]) * x.2.size :=
    Nat.mul_le_mul (Nat.sub_le_sub_left hlive count) hheld.le
  exact absurd (hslots.trans_lt hlt) (by decide)

end Redx.Allocator
