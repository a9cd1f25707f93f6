import Redx.XenStore.Write

/-!
# Listing a directory

`Store::readdir` reads the names of a directory, each with a NUL behind, into a buffer, and the
constructor of a `StorePath` makes a chain of them until the bytes are used up.
-/
namespace Redx.XenStore
open Library Strings

def XS_DIRECTORY : ℕ := 1

/-- `sizeof(buffer)` -/
def sizeofBuffer : ℕ := 4096

/-- `Xen::StorePath`, with what its member `next` leads to. -/
inductive StorePath where
  | last (path : List UInt8)
  | next (path : List UInt8) (rest : StorePath)
  deriving DecidableEq, Repr

def StorePath.paths : StorePath → List (List UInt8)
  | .last path => [path]
  | .next path rest => path :: rest.paths

/-- The loop of the constructor, with the two steps behind it: what is left of the buffer, and
how many bytes of it. No result where the loop returns. -/
def advance : List UInt8 → ℤ → Option (List UInt8 × ℤ)
  | c :: buffer, remaining =>
    if c = 0 then some (buffer, remaining - 1)
    else if remaining < 1 then none
    else advance buffer (remaining - 1)
  | [], _ => none

theorem advance_length {buffer rest : List UInt8} {remaining left : ℤ}
    (h : advance buffer remaining = some (rest, left)) : rest.length < buffer.length := by
  induction buffer generalizing remaining with
  | nil => cases h
  | cons c buffer ih =>
    rw [advance] at h
    split_ifs at h with hc hremaining
    · obtain ⟨rfl, -⟩ := Prod.mk.inj (Option.some.inj h)
      exact Nat.lt_succ_self _
    · exact Nat.lt_succ_of_lt (ih h)

/-- The constructor of a `StorePath`. No result where the string in the buffer does not end. -/
def construct (buffer : List UInt8) (remaining : ℤ) : Option StorePath :=
  if 0 ∉ buffer then none
  else
    let path := buffer.takeWhile (· ≠ 0)
    match _h : advance buffer remaining with
    | none => some (.last path)
    | some (rest, left) =>
      if left < 1 then some (.last path) else (construct rest left).map (.next path)
termination_by buffer.length
decreasing_by exact advance_length ‹_›

/-- The array of `readdir`, with what it happens to hold before. -/
structure Buffer where
  cells : List UInt8
  size : cells.length = sizeofBuffer

/-- What the system calls give to `readdir`, which sends the key with a call of its own. -/
structure DirectoryBus extends Bus where
  writesKey : Bool

inductive Listing where
  | exited (log : String)
  | null
  | overrun
  | chain (path : StorePath)
  deriving DecidableEq, Repr

/-- The chain that the caller walks along. -/
def Listing.paths : Listing → Option (List (List UInt8))
  | .exited _ => none
  | .null => some []
  | .overrun => none
  | .chain path => some path.paths

/-- `Store::readdir` -/
def readdir (buffer : Buffer) (bus : DirectoryBus) : Listing :=
  if bus.opens = false then .exited "failed to open xenbus"
  else if bus.writes = false then .exited "xenbus write"
  else if bus.writesKey = false then .exited "xenbus write"
  else
    match bus.header with
    | none => .exited "xenbus read message"
    | some message =>
      match bus.payload with
      | none => .exited "xenbus read data"
      | some payload =>
        let cells := (Stored.mk 0 (payload.take message.len)).into buffer.cells
        let cells := (Stored.mk message.len [0]).into cells
        if message.type = XS_ERROR then .null
        else (construct cells (toInt message.len)).elim .overrun .chain

/-- The names, each with a NUL behind. -/
def directoryBytes (names : List CString) : List UInt8 := names.flatMap CString.bytes

/-- The store answers with these names. -/
structure Answers (bus : DirectoryBus) (names : List CString) : Prop where
  opens : bus.opens = true
  writes : bus.writes = true
  writesKey : bus.writesKey = true
  header : ∃ hdr, bus.header = some hdr ∧ hdr.type ≠ XS_ERROR ∧
    hdr.len = (directoryBytes names).length
  payload : bus.payload = some (directoryBytes names)

variable {names : List CString} {bus : DirectoryBus} {chars : List UInt8}

theorem advance_chars (h : 0 ∉ chars) (rest : List UInt8) {left : ℤ} (hleft : 0 ≤ left) :
    advance (chars ++ 0 :: rest) (chars.length + 1 + left) = some (rest, left) := by
  induction chars with
  | nil =>
    rw [List.nil_append, advance, if_pos rfl, List.length_nil]
    congr 2
    omega
  | cons c chars ih =>
    have hc : c ≠ 0 := fun hc => h (hc ▸ List.mem_cons_self)
    have hless : ((c :: chars).length + 1 + left : ℤ) - 1 = chars.length + 1 + left := by
      rw [List.length_cons]
      omega
    rw [List.cons_append, advance, if_neg hc, if_neg (by omega), hless]
    exact ih fun hmem => h (List.mem_cons_of_mem c hmem)

theorem takeWhile_chars (h : 0 ∉ chars) (rest : List UInt8) :
    (chars ++ 0 :: rest).takeWhile (· ≠ 0) = chars := by
  have hpos : ∀ c ∈ chars, decide (c ≠ 0) = true := fun c hc =>
    decide_eq_true fun hzero => h (hzero ▸ hc)
  rw [List.takeWhile_append_of_pos hpos, List.takeWhile_cons_of_neg (by decide), List.append_nil]

/-- One element of the chain: its string, and the rest of the chain where bytes are left. -/
theorem construct_of_advance {buffer rest : List UInt8} {remaining left : ℤ}
    (hnul : 0 ∈ buffer) (h : advance buffer remaining = some (rest, left)) :
    construct buffer remaining =
      if left < 1 then some (.last (buffer.takeWhile (· ≠ 0)))
      else (construct rest left).map (.next (buffer.takeWhile (· ≠ 0))) := by
  rw [construct, if_neg (not_not.mpr hnul)]
  split
  · rename_i hnone
    rw [h] at hnone
    cases hnone
  · rename_i hsome
    rw [h] at hsome
    obtain ⟨rfl, rfl⟩ := Prod.mk.inj (Option.some.inj hsome)
    rfl

theorem directoryBytes_cons (name : CString) (names : List CString) (rest : List UInt8) :
    directoryBytes (name :: names) ++ rest = name.chars ++ 0 :: (directoryBytes names ++ rest) := by
  simp [directoryBytes, CString.bytes]

theorem directoryBytes_length_cons (name : CString) (names : List CString) :
    (directoryBytes (name :: names)).length =
      name.chars.length + 1 + (directoryBytes names).length := by
  simp [directoryBytes, CString.bytes]
  omega

/-- The chain has one element for each name, provided that there is a name. -/
theorem construct_directoryBytes (hnames : names ≠ []) (rest : List UInt8) :
    ∃ chain, construct (directoryBytes names ++ rest) (directoryBytes names).length = some chain ∧
      chain.paths = names.map (·.chars) := by
  induction names with
  | nil => exact absurd rfl hnames
  | cons name names ih =>
    have hadvance := advance_chars name.noNul (directoryBytes names ++ rest)
      (Int.natCast_nonneg (directoryBytes names).length)
    rw [directoryBytes_cons, directoryBytes_length_cons, Int.natCast_add, Int.natCast_succ,
      construct_of_advance (by simp) hadvance, takeWhile_chars name.noNul]
    by_cases hlast : names = []
    · subst hlast
      exact ⟨.last name.chars, if_pos (by decide), rfl⟩
    · obtain ⟨chain, hchain, hpaths⟩ := ih hlast
      have hpos : ¬ ((directoryBytes names).length : ℤ) < 1 := by
        obtain ⟨name', names', rfl⟩ := List.exists_cons_of_ne_nil hlast
        rw [directoryBytes_length_cons]
        omega
      refine ⟨.next name.chars chain, ?_, ?_⟩
      · rw [if_neg hpos, hchain]
        rfl
      · rw [StorePath.paths, hpaths]
        rfl

/-- Where no byte was read, the chain has an empty element. -/
theorem construct_nothing (rest : List UInt8) : construct (0 :: rest) 0 = some (.last []) := by
  rw [construct_of_advance List.mem_cons_self rfl, if_pos (by decide),
    List.takeWhile_cons_of_neg (by decide)]

/-- The buffer after the answer is read and closed with a NUL. -/
theorem buffer_eq (buffer : Buffer) {payload : List UInt8} (h : payload.length < sizeofBuffer) :
    (Stored.mk payload.length [0]).into ((Stored.mk 0 payload).into buffer.cells) =
      payload ++ 0 :: buffer.cells.drop (payload.length + 1) := by
  have hlt : payload.length < buffer.cells.length := Nat.lt_of_lt_of_eq h buffer.size.symm
  have hcells : buffer.cells = [] ++ buffer.cells.take payload.length ++
      ([buffer.cells[payload.length]] ++ buffer.cells.drop (payload.length + 1)) := by
    rw [List.nil_append, List.singleton_append, List.getElem_cons_drop, List.take_append_drop]
  have hpayload := Stored.into_append [] (buffer.cells.take payload.length)
    ([buffer.cells[payload.length]] ++ buffer.cells.drop (payload.length + 1)) payload
    (List.length_take_of_le (Nat.le_of_lt hlt))
  have hnul := Stored.into_append payload [buffer.cells[payload.length]]
    (buffer.cells.drop (payload.length + 1)) [0] rfl
  rw [← hcells, List.nil_append, ← List.append_assoc] at hpayload
  exact (congrArg _ hpayload).trans (hnul.trans (List.append_assoc _ _ _))

/-- What `readdir` makes of an answer that leaves room for the NUL. -/
theorem readdir_eq (buffer : Buffer) (hbus : Answers bus names)
    (hsize : (directoryBytes names).length ≤ 4095) :
    readdir buffer bus = (construct
      (directoryBytes names ++ 0 :: buffer.cells.drop ((directoryBytes names).length + 1))
      (directoryBytes names).length).elim .overrun .chain := by
  obtain ⟨hdr, hheader, htype, hlen⟩ := hbus.header
  have hint : toInt (directoryBytes names).length = (directoryBytes names).length :=
    toInt_eq_self (by omega) (by omega)
  rw [readdir, hbus.opens, hbus.writes, hbus.writesKey, hheader, hbus.payload]
  simp only [Bool.true_eq_false, if_false, if_neg htype]
  rw [hlen, List.take_length, hint, buffer_eq buffer (Nat.lt_succ_of_le hsize)]

theorem readdir_empty (buffer : Buffer) (hbus : Answers bus []) :
    readdir buffer bus = .chain (.last []) :=
  (readdir_eq buffer hbus (Nat.zero_le _)).trans
    (congrArg (fun path => path.elim Listing.overrun .chain) (construct_nothing _))

/-- The chain lists the names of a directory just when there are any. -/
theorem readdir_paths_iff (buffer : Buffer) (bus : DirectoryBus) (names : List CString)
    (hbus : Answers bus names) (hsize : (directoryBytes names).length ≤ 4095) :
    (readdir buffer bus).paths = some (names.map (·.chars)) ↔ names ≠ [] := by
  constructor
  · rintro h rfl
    rw [readdir_empty buffer hbus] at h
    cases h
  · intro hnames
    obtain ⟨chain, hchain, hpaths⟩ := construct_directoryBytes hnames
      (0 :: buffer.cells.drop ((directoryBytes names).length + 1))
    rw [readdir_eq buffer hbus hsize, hchain, ← hpaths]
    rfl

/-- The answer of the store to a directory with these names. -/
def answer (names : List CString) : DirectoryBus where
  opens := true
  writes := true
  header := some ⟨XS_DIRECTORY, 0, 0, (directoryBytes names).length⟩
  payload := some (directoryBytes names)
  writesKey := true

theorem answers_answer (names : List CString) : Answers (answer names) names where
  opens := rfl
  writes := rfl
  writesKey := rfl
  header := ⟨_, rfl, show XS_DIRECTORY ≠ XS_ERROR by decide, rfl⟩
  payload := rfl

def blankBuffer : Buffer := ⟨List.replicate sizeofBuffer 0, List.length_replicate⟩

def domid : CString := ⟨[100, 111, 109, 105, 100], by decide⟩

def domname : CString := ⟨[110, 97, 109, 101], by decide⟩

theorem readdir_paths_two : (readdir blankBuffer (answer [domid, domname])).paths =
    some [domid.chars, domname.chars] :=
  (readdir_paths_iff blankBuffer _ [domid, domname] (answers_answer _) (by decide)).mpr
    (List.cons_ne_nil _ _)

/-- An empty directory is listed with one name, which is empty. -/
theorem readdir_paths_empty : (readdir blankBuffer (answer [])).paths = some [[]] ∧
    some [[]] ≠ some (([] : List CString).map (·.chars)) := by
  rw [readdir_empty blankBuffer (answers_answer [])]
  refine ⟨rfl, ?_⟩
  rintro ⟨⟩

end Redx.XenStore
