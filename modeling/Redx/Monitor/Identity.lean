import Redx.Monitor.Cache

/-!
# The UUID of a node

`LoadUUID` takes the UUID of the node from a configuration file, and where there is none in it, a
new one, which it writes to the file. What is written may not reach the disk, and a process may
not get to the end of the call: the node is known by one UUID from then on only if the text did.
-/
namespace Redx.Monitor

/-- `fscanf( f, "%s", buffer )` with a buffer of 128 bytes: whether it assigns, and the buffer. A
token that does not fit is written past its end. -/
def scanWord (contents : List UInt8) (buffer : Fin 128 → UInt8) :
    Option (Bool × (Fin 128 → UInt8)) :=
  let token := (contents.dropWhile isspace).takeWhile fun c => !isspace c
  if token = [] then some (false, buffer)
  else if 128 ≤ token.length then none
  else some (true, fun i => if i < token.length then token.getD i 0
    else if i = token.length then 0 else buffer i)

/-- `uuid.set( buffer )` -/
def uuidOf (buffer : Fin 128 → UInt8) : UUID := .ofString fun i => buffer (i.castLE (by decide))

/-- `fprintf( f, "%s\n", buffer )` -/
def lineOf (buffer : Fin 128 → UInt8) : List UInt8 := (List.ofFn buffer).takeWhile (· ≠ 0) ++ [10]

/-- One start of the program: what the kernel gives for a new UUID, what the stack holds in the
buffer, whether the configuration can be opened for writing, how much of what is written reaches
the disk, and whether the process gets past that. -/
structure Start where
  random : List UInt8
  stack : Fin 128 → UInt8
  opens : Bool
  written : ℕ
  survives : Bool

/-- `LoadUUID`: the UUID that the node has, if the process gets so far, and the file it leaves. -/
def loadUUID (file : Option (List UInt8)) (start : Start) :
    Option (Option UUID × Option (List UInt8)) :=
  let configured := match file with
    | none => some (false, start.stack)
    | some contents => scanWord contents start.stack
  match configured with
  | none => none
  | some (true, buffer) => some (some (uuidOf buffer), file)
  | some (false, buffer) =>
    match scanWord start.random buffer with
    | none => none
    | some (false, _) => some (none, file)
    | some (true, buffer) =>
      if start.opens = false then some (some (uuidOf buffer), file)
      else some (if start.survives then some (uuidOf buffer) else none,
        some ((lineOf buffer).take start.written))

/-- The UUIDs that the node has in turn. -/
def uuids (file : Option (List UInt8)) : List Start → List UUID
  | [] => []
  | start :: starts =>
    match loadUUID file start with
    | none => []
    | some (uuid, file) => uuid.toList ++ uuids file starts

/-- The text of a UUID, on a line of its own. -/
def uuidLine (data : Fin 16 → UInt8) : List UInt8 := (UUID.ofData data).text ++ [10]

/-- The kernel gives the text of some UUID. -/
def Start.Generates (start : Start) : Prop := ∃ data, start.random = uuidLine data

variable {data : Fin 16 → UInt8} {buffer stack : Fin 128 → UInt8} {start : Start} {k : ℕ}

theorem length_text (data : Fin 16 → UInt8) : (UUID.ofData data).text.length = 36 := by
  rw [(UUID.ofData_formatted data).text, List.length_ofFn]

theorem text_printed (data : Fin 16 → UInt8) :
    ∀ c ∈ (UUID.ofData data).text, isspace c = false := by
  intro c hc
  rw [(UUID.ofData_formatted data).text] at hc
  obtain ⟨i, rfl⟩ := List.mem_ofFn.mp hc
  exact UUID.isspace_format data i

/-- What the buffer holds once a token was scanned into it. -/
def scanned (token : List UInt8) (buffer : Fin 128 → UInt8) : Fin 128 → UInt8 := fun i =>
  if i < token.length then token.getD i 0 else if i = token.length then 0 else buffer i

/-- A token without white space, with or without a newline after it, is scanned as it stands. -/
theorem scanWord_token {token rest : List UInt8} (hne : token ≠ []) (hlen : token.length < 128)
    (hprinted : ∀ c ∈ token, isspace c = false) (hrest : rest = [] ∨ rest = [10]) :
    scanWord (token ++ rest) buffer = some (true, scanned token buffer) := by
  have hdrop : (token ++ rest).dropWhile isspace = token ++ rest := by
    cases token with
    | nil => exact absurd rfl hne
    | cons c token =>
      rw [List.cons_append, List.dropWhile_cons_of_neg]
      simp [hprinted c List.mem_cons_self]
  have htake : (token ++ rest).takeWhile (fun c => !isspace c) = token := by
    rw [List.takeWhile_append_of_pos (by simpa using hprinted)]
    rcases hrest with rfl | rfl <;> simp [isspace]
  rw [scanWord, hdrop, htake, if_neg hne, if_neg (by omega)]
  rfl

/-- Of the line of a UUID the file has at least the text. -/
theorem scanWord_whole (data : Fin 16 → UInt8) (hk : 36 ≤ k) (buffer : Fin 128 → UInt8) :
    scanWord ((uuidLine data).take k) buffer =
      some (true, scanned (UUID.ofData data).text buffer) := by
  have hlen := length_text data
  rw [uuidLine, List.take_append, List.take_of_length_le (by omega)]
  refine scanWord_token ?_ (by omega) (text_printed data) ?_
  · exact fun hnil => by simp [hnil] at hlen
  · rcases Nat.eq_zero_or_pos (k - (UUID.ofData data).text.length) with hzero | hpos
    · exact .inl (by rw [hzero, List.take_zero])
    · exact .inr (List.take_of_length_le hpos)

/-- The characters of a text in the buffer, and the NUL behind them. -/
theorem scanned_text (data : Fin 16 → UInt8) (buffer : Fin 128 → UInt8) (i : Fin 37) :
    scanned (UUID.ofData data).text buffer (i.castLE (by decide)) = UUID.format data i := by
  have hlen := length_text data
  refine Fin.lastCases ?_ (fun c => ?_) i
  · simp only [scanned, Fin.val_castLE, Fin.val_last, hlen, lt_irrefl, if_false, if_true]
    exact (UUID.format_last data).symm
  · have hc := c.isLt
    simp only [scanned, Fin.val_castLE, Fin.val_castSucc, hlen, if_pos hc]
    rw [(UUID.ofData_formatted data).text, List.getD_eq_getElem?_getD, List.getElem?_ofFn,
      dif_pos hc]
    rfl

/-- The text of a UUID in the buffer is read as its bytes. -/
theorem uuidOf_scanned (data : Fin 16 → UInt8) (buffer : Fin 128 → UInt8) :
    (uuidOf (scanned (UUID.ofData data).text buffer)).data = data := by
  have hstring : (fun i : Fin 37 => scanned (UUID.ofData data).text buffer
      (i.castLE (by decide))) = UUID.format data := funext (scanned_text data buffer)
  have hend : Function.update (UUID.format data) 36 0 = UUID.format data := by
    rw [Function.update_eq_self_iff]
    exact (UUID.format_last data).symm
  rw [uuidOf, hstring, UUID.ofString, hend]
  exact UUID.parse_format data

/-- The line that is written is the one of the UUID. -/
theorem lineOf_scanned (data : Fin 16 → UInt8) (buffer : Fin 128 → UInt8) :
    lineOf (scanned (UUID.ofData data).text buffer) = uuidLine data := by
  have htake : (List.ofFn (scanned (UUID.ofData data).text buffer)).take 37 =
      (UUID.ofData data).text ++ [0] := by
    have hformat : List.ofFn (UUID.format data) = (UUID.ofData data).text ++ [0] := by
      rw [List.ofFn_succ_last, UUID.format_last, (UUID.ofData_formatted data).text]
      rfl
    rw [← hformat]
    refine List.ext_getElem ?_ fun i hi hi' => ?_
    · rw [List.length_take, List.length_ofFn, List.length_ofFn]
      rfl
    · rw [List.getElem_take, List.getElem_ofFn, List.getElem_ofFn]
      exact scanned_text data buffer ⟨i, hi'.trans_eq List.length_ofFn⟩
  have hpos : ∀ c ∈ (UUID.ofData data).text, decide (c ≠ 0) = true := by
    intro c hc
    rw [(UUID.ofData_formatted data).text] at hc
    obtain ⟨i, rfl⟩ := List.mem_ofFn.mp hc
    exact decide_eq_true (UUID.format_ne_zero data i)
  rw [lineOf, ← List.take_append_drop 37 (List.ofFn _), htake, List.append_assoc,
    List.takeWhile_append_of_pos hpos, List.singleton_append,
    List.takeWhile_cons_of_neg (by decide), List.append_nil, uuidLine]

theorem loadUUID_whole (data : Fin 16 → UInt8) (hk : 36 ≤ k) (start : Start) :
    ∃ u : UUID, u.data = data ∧
      loadUUID (some ((uuidLine data).take k)) start =
        some (some u, some ((uuidLine data).take k)) := by
  refine ⟨_, uuidOf_scanned data start.stack, ?_⟩
  rw [loadUUID]
  simp only [scanWord_whole data hk]

/-- From then on the node is known by the UUID in the file. -/
theorem uuids_whole (hk : 36 ≤ k) (starts : List Start) :
    ∀ u ∈ uuids (some ((uuidLine data).take k)) starts, u.data = data := by
  induction starts with
  | nil => nofun
  | cons start starts ih =>
    obtain ⟨u, hu, hload⟩ := loadUUID_whole data hk start
    rw [uuids, hload]
    simp only [Option.toList_some, List.singleton_append, List.forall_mem_cons]
    exact ⟨hu, ih⟩

/-- A start that finds no UUID in its configuration, and can write one there. -/
theorem loadUUID_new (data : Fin 16 → UInt8) (start : Start) (hopens : start.opens = true)
    (hrandom : start.random = uuidLine data) {file : Option (List UInt8)}
    (hfile : file = none ∨ file = some []) :
    ∃ u : UUID, u.data = data ∧ loadUUID file start =
      some (if start.survives then some u else none,
        some ((uuidLine data).take start.written)) := by
  have hscan (buffer : Fin 128 → UInt8) : scanWord start.random buffer =
      some (true, scanned (UUID.ofData data).text buffer) := by
    have h := scanWord_whole data (k := 37) (by decide) buffer
    have hlen : (uuidLine data).length = 37 := by
      rw [uuidLine, List.length_append, length_text]
      rfl
    rwa [List.take_of_length_le hlen.le, ← hrandom] at h
  have hempty : scanWord [] start.stack = some (false, start.stack) := rfl
  refine ⟨_, uuidOf_scanned data start.stack, ?_⟩
  rcases hfile with rfl | rfl
  · simp only [loadUUID, hscan, hopens, lineOf_scanned, Bool.true_eq_false, if_false]
  · simp only [loadUUID, hempty, hscan, hopens, lineOf_scanned, Bool.true_eq_false, if_false]

/-- What is left of a text that was cut, in the buffer. -/
theorem scanWord_part (hk : k < 36) (hpos : 0 < k) (buffer : Fin 128 → UInt8) :
    scanWord ((uuidLine data).take k) buffer =
      some (true, scanned ((UUID.ofData data).text.take k) buffer) := by
  have hlen := length_text data
  have htake : ((UUID.ofData data).text.take k).length = k := List.length_take_of_le (by omega)
  have hsize : ((UUID.ofData data).text.take k).length < 128 := by omega
  have hline : (uuidLine data).take k = (UUID.ofData data).text.take k ++ [] := by
    rw [uuidLine, List.take_append_of_le_length (by omega), List.append_nil]
  rw [hline]
  refine scanWord_token (fun hnil => ?_) hsize (fun c hc => ?_) (.inl rfl)
  · rw [hnil, List.length_nil] at htake
    omega
  · exact text_printed data c (List.mem_of_mem_take hc)

/-- The last byte of the UUID that is made of the buffer. -/
theorem uuidOf_data_last (buffer : Fin 128 → UInt8) :
    (uuidOf buffer).data 15 = (UUID.hexval (buffer 34) <<< 4) + UUID.hexval (buffer 35) := by
  rw [uuidOf, UUID.ofString]
  rfl

/-- What the buffer holds behind the part of a text decides about the last byte, or the NUL that
ends the part does. -/
theorem uuidOf_part_ne (data : Fin 16 → UInt8) (hk : k < 36) (hpos : 0 < k) :
    ∃ stack, (uuidOf (scanned ((UUID.ofData data).text.take k) stack)).data ≠ data := by
  have hlen : ((UUID.ofData data).text.take k).length = k :=
    List.length_take_of_le (by rw [length_text]; omega)
  by_contra hall
  simp only [ne_eq, not_exists, not_not] at hall
  have hlast (stack : Fin 128 → UInt8) := (uuidOf_data_last _).symm.trans (congrFun (hall stack) 15)
  rcases eq_or_ne k 35 with rfl | hend
  · have hnul : scanned ((UUID.ofData data).text.take 35) (fun _ => 0) 35 = 0 := by
      simp [scanned]
    have hdigit : scanned ((UUID.ofData data).text.take 35) (fun _ => 0) 34 =
        UUID.format data 34 := by
      have h := scanned_text data (fun _ => 0) 34
      have hlt : ((34 : Fin 37).castLE (by decide) : Fin 128).val < 36 := by decide
      simp only [scanned, length_text, if_pos hlt] at h
      simp only [scanned, hlen]
      rw [← h]
      simp [length_text]
    have hlow : ∀ n : Fin 16, UUID.hexval (UUID.hex (UInt8.ofNat n)) ≠ UUID.hexval 0 := by
      decide +kernel
    have h := hlast fun _ => 0
    rw [hnul, hdigit, ← congrFun (UUID.parse_format data) 15] at h
    have hcancel : UUID.hexval 0 = UUID.hexval (UUID.format data 35) :=
      (UInt8.add_right_inj _).mp h
    have hformat : UUID.format data 35 = UUID.hex (UInt8.ofNat (UUID.nybble data 31).toNat) := by
      rw [UInt8.ofNat_toNat, UUID.format_literal]
      rfl
    rw [hformat] at hcancel
    exact hlow ⟨_, UUID.nybble_lt data 31⟩ hcancel.symm
  · have hbehind (s : UInt8) :
        scanned ((UUID.ofData data).text.take k) (fun _ => s) 35 = s := by
      have hlt : ¬ 35 < k := by omega
      simp [scanned, hlen, hlt, Ne.symm hend]
    have heven : ∀ b : Fin 256, ((UInt8.ofFin b <<< 4) + UUID.hexval 48) &&& 1 = 0 := by
      decide +kernel
    have hodd : ∀ b : Fin 256, ((UInt8.ofFin b <<< 4) + UUID.hexval 49) &&& 1 = 1 := by
      decide +kernel
    have h₀ := hlast fun _ => 48
    have h₁ := hlast fun _ => 49
    rw [hbehind] at h₀ h₁
    have h := (heven (UUID.hexval _).toFin).symm.trans
      ((congrArg (· &&& 1) (h₀.trans h₁.symm)).trans (hodd (UUID.hexval _).toFin))
    exact absurd h (by decide)

/-- Of the text of a UUID a part is in the file: a later start may come to another UUID. -/
theorem exists_other (data : Fin 16 → UInt8) (hk : k < 36) :
    ∃ start : Start, start.Generates ∧
      ∃ u file, loadUUID (some ((uuidLine data).take k)) start = some (some u, file) ∧
        u.data ≠ data := by
  rcases Nat.eq_zero_or_pos k with rfl | hpos
  · let other : Fin 16 → UInt8 := fun _ => data 0 + 1
    obtain ⟨u, hu, hload⟩ := loadUUID_new other ⟨uuidLine other, fun _ => 0, true, 37, true⟩ rfl rfl
      (.inr rfl)
    refine ⟨_, ⟨other, rfl⟩, u, _, hload, fun hdata => ?_⟩
    have hzero : data 0 + 1 = data 0 := congrFun (hu.symm.trans hdata) 0
    rw [UInt8.add_eq_left] at hzero
    cases hzero
  · obtain ⟨stack, hstack⟩ := uuidOf_part_ne data hk hpos
    refine ⟨⟨uuidLine data, stack, true, 37, true⟩, ⟨data, rfl⟩, _,
      some ((uuidLine data).take k), ?_, hstack⟩
    simp only [loadUUID, scanWord_part hk hpos]

/-- A node without a UUID is started, and gets one: it is known by this one, in all starts to come,
if and only if the text of it has reached the disk. -/
theorem identity_kept_iff (data : Fin 16 → UInt8) (start : Start) (hopens : start.opens = true)
    (hrandom : start.random = uuidLine data) :
    (∀ starts : List Start, (∀ s ∈ starts, s.Generates) →
      ∀ u ∈ uuids none (start :: starts), u.data = data) ↔ 36 ≤ start.written := by
  obtain ⟨u, hu, hload⟩ := loadUUID_new data start hopens hrandom (.inl rfl)
  constructor
  · intro hall
    by_contra hk
    obtain ⟨other, hother, v, file, hload', hv⟩ := exists_other data (Nat.not_le.mp hk)
    refine hv (hall [other] (by simpa using hother) v ?_)
    rw [uuids, hload]
    simp [uuids, hload']
  · rintro hk starts - v hv
    rw [uuids, hload] at hv
    rcases List.mem_append.mp hv with hv | hv
    · obtain rfl : v = u := by
        cases hs : start.survives <;> simp [hs] at hv
        exact hv
      exact hu
    · exact uuids_whole hk starts v hv

/-- The whole line of the UUID reached the disk. -/
theorem identity_kept_iff_zeros :
    (∀ starts : List Start, (∀ s ∈ starts, s.Generates) →
      ∀ u ∈ uuids none (⟨uuidLine fun _ => 0, fun _ => 0, true, 37, true⟩ :: starts),
        u.data = fun _ => 0) ↔ 36 ≤ 37 :=
  identity_kept_iff _ ⟨uuidLine fun _ => 0, fun _ => 0, true, 37, true⟩ rfl rfl

end Redx.Monitor
