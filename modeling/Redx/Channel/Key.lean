import Redx.Library.Bytes
import Redx.Channel.Message

/-!
# The queue of a service

A service and its clients find their queue by a key. The key is what `service_key` reads, as an
integer of four bytes, at the address of the service's name.
-/
namespace Redx.Channel
open Library

/-- A string of C that is not empty. -/
@[ext] structure Name where
  characters : List UInt8
  nonempty : characters ≠ []
  noNul : 0 ∉ characters
  deriving DecidableEq

/-- The memory from a name on: its characters, the NUL and whatever comes behind. -/
def Name.memory (name : Name) (behind : ℕ → UInt8) (i : ℕ) : UInt8 :=
  match name.characters[i]? with
  | some c => c
  | none => if i = name.characters.length then 0 else behind i

/-- `service_key`, which exits when the key is `-1`. -/
def serviceKey (serviceName : ℕ → UInt8) : Option ℕ :=
  let key := valueAt serviceName 0 4
  if key = 0xFFFFFFFF then none else some key

/-- A queue of the kernel, with the key that it was made for. -/
structure Queue where
  key : ℕ
  messages : List Message
  deriving DecidableEq, Repr

def ipcPrivate : ℕ := 0

/-- `msgget( key, IPC_CREAT | 0777 )`: the queue of the key, which is made if there is none.
`IPC_PRIVATE` always makes one. -/
def msgget (kernel : List Queue) (key : ℕ) : List Queue × ℕ :=
  match if key = ipcPrivate then none else kernel.findIdx? fun queue => queue.key = key with
  | some q => (kernel, q)
  | none => (kernel ++ [⟨key, []⟩], kernel.length)

def msgsnd (kernel : List Queue) (q : ℕ) (m : Message) : List Queue :=
  kernel.modify q fun queue => { queue with messages := queue.messages ++ [m] }

/-- The messages that a `msgrcv` on a queue chooses from. -/
def messages (kernel : List Queue) (q : ℕ) : List Message :=
  match kernel[q]? with
  | some queue => queue.messages
  | none => []

/-- `Channel::Channel`, with the memory at `service->name()`. -/
def channel (kernel : List Queue) (name : ℕ → UInt8) : Option (List Queue × ℕ) :=
  (serviceKey name).map (msgget kernel)

/-- `ChannelClient::ChannelClient` -/
def channelClient (kernel : List Queue) (serviceName : ℕ → UInt8) : Option (List Queue × ℕ) :=
  (serviceKey serviceName).map (msgget kernel)

/-- A service and a client start, and the client sends: the messages for the service before and
after. -/
def exchange (kernel : List Queue) (name serviceName : ℕ → UInt8) (m : Message) :
    Option (List Message × List Message) := do
  let (kernel, q) ← channel kernel name
  let (kernel, q') ← channelClient kernel serviceName
  return (messages kernel q, messages (msgsnd kernel q' m) q)

/-- The message comes to the service. -/
def Reaches (kernel : List Queue) (name serviceName : ℕ → UInt8) (m : Message) : Prop :=
  ∃ before, exchange kernel name serviceName m = some (before, before ++ [m])

/-- Both get a key, and it is the same. -/
def SameKey (name serviceName : ℕ → UInt8) : Prop :=
  ∃ key, serviceKey name = some key ∧ serviceKey serviceName = some key

/-- The keys of service `a` and of a client of `b` are equal for equal names only, and the
requests of this client come to the service for equal names only. `r` and `s` are the bytes behind
the two strings. -/
def Isolated (a b : Name) (r s : ℕ → UInt8) : Prop :=
  (SameKey (a.memory r) (b.memory s) ↔ a = b) ∧
    ∀ kernel pid message serial,
      Reaches kernel (a.memory r) (b.memory s) (clientMessage pid message serial) ↔ a = b

/-- Equal names do not begin with four bytes of 255, and the bytes behind them agree as far as the
key goes; different names of four characters or more differ in the first four, unless these are
255. -/
def Separated (a b : Name) (r s : ℕ → UInt8) : Prop :=
  (a = b → a.characters.take 4 ≠ [255, 255, 255, 255] ∧
    ∀ i < 4, a.characters.length < i → r i = s i) ∧
  (a ≠ b → 4 ≤ a.characters.length → a.characters.take 4 = b.characters.take 4 →
    a.characters.take 4 = [255, 255, 255, 255])

section Kernel

variable {kernel : List Queue} {key key' q q' : ℕ} {m : Message}

/-- The queue that a key was given is the first of this key. -/
theorem findIdx_msgget (kernel : List Queue) (hkey : key ≠ ipcPrivate) :
    (msgget kernel key).1.findIdx? (fun queue => queue.key = key) =
      some (msgget kernel key).2 := by
  unfold msgget
  rw [if_neg hkey]
  split
  · assumption
  · rename_i hnone
    simp [List.findIdx?_append, hnone]

/-- It stays so when others are given their queues. -/
theorem findIdx_msgget_other (key : ℕ) {p : Queue → Bool} (h : kernel.findIdx? p = some q) :
    (msgget kernel key).1.findIdx? p = some q := by
  unfold msgget
  split
  · exact h
  · simp [List.findIdx?_append, h]

theorem key_of_findIdx (h : kernel.findIdx? (fun queue => queue.key = key) = some q) :
    kernel[q]?.map Queue.key = some key := by
  obtain ⟨hlt, hkey, -⟩ := List.findIdx?_eq_some_iff_getElem.mp h
  rw [List.getElem?_eq_getElem hlt]
  simpa using hkey

/-- Two keys are given one queue if and only if they are equal. -/
theorem msgget_eq_iff (kernel : List Queue) (hkey : key ≠ ipcPrivate) (hkey' : key' ≠ ipcPrivate) :
    (msgget (msgget kernel key).1 key').2 = (msgget kernel key).2 ↔ key = key' := by
  have h := findIdx_msgget_other key' (findIdx_msgget kernel hkey)
  have h' := findIdx_msgget (msgget kernel key).1 hkey'
  constructor
  · intro hq
    have hk := key_of_findIdx h
    rw [← hq, key_of_findIdx h'] at hk
    exact (Option.some.inj hk).symm
  · rintro rfl
    rw [h] at h'
    exact (Option.some.inj h').symm

theorem messages_msgsnd (hq : q < kernel.length) :
    messages (msgsnd kernel q' m) q = messages kernel q ++ [m] ↔ q' = q := by
  unfold messages msgsnd
  rw [List.getElem?_modify, List.getElem?_eq_getElem hq]
  by_cases h : q' = q
  · simp [h]
  · simp [h]

end Kernel

section Memory

variable {x y : ℕ → UInt8} {kernel : List Queue} {m : Message}

theorem sameKey_iff : SameKey x y ↔ (∀ i < 4, x i = y i) ∧ ¬ ∀ i < 4, x i = 255 := by
  have hxy : valueAt x 0 4 = valueAt y 0 4 ↔ ∀ i < 4, x i = y i := by
    have hinj : valueAt x 0 4 = valueAt y 0 4 ↔ ∀ i < 4, x (0 + i) = y (0 + i) := valueAt_inj
    simpa using hinj
  have hff : valueAt x 0 4 = 0xFFFFFFFF ↔ ∀ i < 4, x i = 255 := by
    have hvalue : valueAt (fun _ => 255) 0 4 = 0xFFFFFFFF := by decide
    rw [← hvalue, valueAt_inj]
    simp
  rw [← hxy, ← hff, SameKey, serviceKey, serviceKey]
  by_cases h : valueAt x 0 4 = 0xFFFFFFFF
  · simp [h]
  · simp only [if_neg h, Option.some.injEq]
    constructor
    · rintro ⟨key, rfl, hy⟩
      split at hy
      · cases hy
      · exact ⟨(Option.some.inj hy).symm, h⟩
    · rintro ⟨heq, -⟩
      exact ⟨valueAt x 0 4, rfl, by rw [← heq, if_neg h]⟩

theorem serviceKey_ne_private (hx : x 0 ≠ 0) {key : ℕ} (h : serviceKey x = some key) :
    key ≠ ipcPrivate := by
  rintro rfl
  have hpos : 0 < (x 0).toNat := by
    rw [Nat.pos_iff_ne_zero]
    exact fun hzero => hx (UInt8.toNat_inj.mp hzero)
  have hvalue : valueAt x 0 4 = 0 := by
    dsimp only [serviceKey] at h
    split at h
    · cases h
    · exact Option.some.inj h
  rw [valueAt] at hvalue
  omega

/-- A request comes to the service if and only if the keys are the same. -/
theorem reaches_iff (hx : x 0 ≠ 0) (hy : y 0 ≠ 0) : Reaches kernel x y m ↔ SameKey x y := by
  unfold Reaches exchange channel channelClient SameKey
  cases hkey : serviceKey x with
  | none => simp
  | some key =>
    cases hkey' : serviceKey y with
    | none => simp
    | some key' =>
      have hprivate := serviceKey_ne_private hx hkey
      have h := findIdx_msgget_other key' (findIdx_msgget kernel hprivate)
      obtain ⟨hlt, -⟩ := List.findIdx?_eq_some_iff_getElem.mp h
      have hq := msgget_eq_iff kernel hprivate (serviceKey_ne_private hy hkey')
      rw [← messages_msgsnd (m := m) hlt] at hq
      simpa using hq.trans eq_comm

end Memory

section Names

variable {a b : Name} {r s : ℕ → UInt8} {i : ℕ}

theorem Name.memory_of_lt (h : i < a.characters.length) :
    a.memory r i = a.characters[i] := by
  rw [Name.memory, List.getElem?_eq_getElem h]

theorem Name.memory_length : a.memory r a.characters.length = 0 := by
  simp [Name.memory]

theorem Name.memory_of_gt (h : a.characters.length < i) : a.memory r i = r i := by
  rw [Name.memory, List.getElem?_eq_none (Nat.le_of_lt h)]
  exact if_neg (Nat.ne_of_gt h)

theorem Name.memory_ne_zero (h : i < a.characters.length) : a.memory r i ≠ 0 := by
  rw [Name.memory_of_lt h]
  exact fun hzero => a.noNul (hzero ▸ List.getElem_mem h)

/-- As long as the memories agree, one name does not end before the other. -/
theorem Name.length_le (hagree : ∀ i < 4, a.memory r i = b.memory s i)
    (hb : b.characters.length < 4) : a.characters.length ≤ b.characters.length := by
  by_contra hlt
  have hne := Name.memory_ne_zero (a := a) (r := r) (Nat.lt_of_not_le hlt)
  rw [hagree _ hb, Name.memory_length] at hne
  exact hne rfl

theorem length_eq_of_take (h : a.characters.take 4 = b.characters.take 4)
    (ha : a.characters.length < 4) : b.characters.length = a.characters.length := by
  have := congrArg List.length h
  rw [List.length_take, List.length_take] at this
  omega

/-- The memories agree where the key is read. -/
theorem agree_iff : (∀ i < 4, a.memory r i = b.memory s i) ↔
    a.characters.take 4 = b.characters.take 4 ∧
      ∀ i < 4, a.characters.length < i → r i = s i := by
  constructor
  · intro hagree
    have hle := Name.length_le hagree
    have hge := Name.length_le fun i hi => (hagree i hi).symm
    have htake : a.characters.take 4 = b.characters.take 4 := by
      refine List.ext_getElem ?_ fun i hi hi' => ?_
      · rw [List.length_take, List.length_take]
        omega
      · rw [List.length_take] at hi hi'
        rw [List.getElem_take, List.getElem_take, ← Name.memory_of_lt (r := r) (by omega),
          ← Name.memory_of_lt (r := s) (by omega)]
        exact hagree i (by omega)
    refine ⟨htake, fun i hi hlt => ?_⟩
    have hlength := length_eq_of_take htake (by omega)
    rw [← Name.memory_of_gt (r := r) hlt, ← Name.memory_of_gt (a := b) (r := s) (by omega)]
    exact hagree i hi
  · rintro ⟨htake, hbehind⟩ i hi
    rcases Nat.lt_trichotomy i a.characters.length with hlt | heq | hgt
    · have hget : (a.characters.take 4)[i]? = (b.characters.take 4)[i]? := by rw [htake]
      rw [List.getElem?_take_of_lt hi, List.getElem?_take_of_lt hi,
        List.getElem?_eq_getElem hlt] at hget
      rw [Name.memory_of_lt hlt, Name.memory, ← hget]
    · have hlength := length_eq_of_take htake (by omega)
      rw [heq, Name.memory_length, ← hlength, Name.memory_length]
    · have hlength := length_eq_of_take htake (by omega)
      rw [Name.memory_of_gt hgt, Name.memory_of_gt (by omega)]
      exact hbehind i hi hgt

theorem all_ff_iff : (∀ i < 4, a.memory r i = 255) ↔
    a.characters.take 4 = [255, 255, 255, 255] := by
  let ff : Name := ⟨[255, 255, 255, 255], by decide, by decide⟩
  have hff : ∀ i < 4, ff.memory r i = 255 := by
    intro i hi
    match i, hi with
    | 0, _ | 1, _ | 2, _ | 3, _ => rfl
  have hagree := agree_iff (a := a) (b := ff) (r := r) (s := r)
  constructor
  · intro h
    exact (hagree.mp fun i hi => (h i hi).trans (hff i hi).symm).1
  · intro h i hi
    rw [hagree.mpr ⟨h, fun _ _ _ => rfl⟩ i hi, hff i hi]

/-- Different names with the same beginning are at least four characters long. -/
theorem le_length_of_take (h : a.characters.take 4 = b.characters.take 4) (hne : a ≠ b) :
    4 ≤ a.characters.length := by
  by_contra hlt
  have hlength := length_eq_of_take h (by omega)
  rw [List.take_of_length_le (by omega), List.take_of_length_le (by omega)] at h
  exact hne (Name.ext h)

theorem sameKey_names : SameKey (a.memory r) (b.memory s) ↔
    (a.characters.take 4 = b.characters.take 4 ∧ ∀ i < 4, a.characters.length < i → r i = s i) ∧
      a.characters.take 4 ≠ [255, 255, 255, 255] := by
  rw [sameKey_iff, agree_iff, all_ff_iff]

theorem sameKey_eq_iff (a b : Name) (r s : ℕ → UInt8) :
    (SameKey (a.memory r) (b.memory s) ↔ a = b) ↔ Separated a b r s := by
  rw [sameKey_names, Separated]
  by_cases hab : a = b
  · subst hab
    simp [and_comm]
  · have hle := fun h => le_length_of_take h hab
    simp only [hab, iff_false, false_implies, true_and, ne_eq, not_false_eq_true, true_implies]
    constructor
    · intro hno hlength htake
      by_contra hff
      exact hno ⟨⟨htake, fun i hi hlt => absurd hlt (by omega)⟩, hff⟩
    · rintro hsep ⟨⟨htake, -⟩, hff⟩
      exact hff (hsep (hle htake) htake)

end Names

/-- Two names are isolated if and only if the first four bytes at them separate them. -/
theorem isolated_iff (a b : Name) (r s : ℕ → UInt8) : Isolated a b r s ↔ Separated a b r s := by
  have hpos : ∀ name : Name, ∀ behind, name.memory behind 0 ≠ 0 := fun name behind =>
    name.memory_ne_zero (List.length_pos_of_ne_nil name.nonempty)
  have hreach : ∀ kernel pid message serial,
      Reaches kernel (a.memory r) (b.memory s) (clientMessage pid message serial) ↔
        SameKey (a.memory r) (b.memory s) :=
    fun _ _ _ _ => reaches_iff (hpos a r) (hpos b s)
  rw [← sameKey_eq_iff, Isolated]
  refine and_iff_left_of_imp fun h kernel pid message serial => ?_
  exact (hreach kernel pid message serial).trans h

/-- `spine` and `spin` -/
def spine : Name := ⟨[115, 112, 105, 110, 101], by decide, by decide⟩

def spin : Name := ⟨[115, 112, 105, 110], by decide, by decide⟩

theorem not_isolated : ¬ Isolated spine spin (fun _ => 0) (fun _ => 0) := by
  intro h
  have hkey : SameKey (spine.memory fun _ => 0) (spin.memory fun _ => 0) :=
    ⟨0x6E697073, by decide, by decide⟩
  exact absurd (h.1.mp hkey) (by decide)

end Redx.Channel
