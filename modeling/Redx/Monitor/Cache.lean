import Redx.Monitor.Partner

/-!
# The partner cache across a restart

`save_cache` writes the text of the one partner, and `load_cache` in a new monitor reads it back.
Without a partner the file is empty. `load_cache` logs that it found no token, goes on, and
makes a partner out of what the stack held in its buffer.
-/
namespace Redx.Monitor
open Library

namespace UUID

/-- The text has no white space before its terminator. -/
theorem isspace_format (data : Fin 16 → UInt8) (c : Fin 36) :
    isspace (format data c.castSucc) = false :=
  format_forall (P := fun b => isspace b = false) (by decide) (by decide +kernel) data c

end UUID

variable {t : Table nodeTableSize Node} {buffer : Fin 80 → UInt8} {i : NodeIndex}

/-- The UUIDs of the valid entries that are partners. -/
def partnerIds (t : Table nodeTableSize Node) : Set (Fin 16 → UInt8) :=
  {d | ∃ i, (t.entries i).isPartner = true ∧ (t.entries i).uuid.data = d}

/-- Saving the cache, then loading it in a new monitor whose stack holds `buffer`, brings back the
partners and no other valid entry. -/
def CacheRoundTrip (t : Table nodeTableSize Node) (buffer : Fin 80 → UInt8) : Prop :=
  ∃ t', loadCache newNodeTable (some (saveCache t).1) buffer = some t' ∧
    partnerIds t' = partnerIds t ∧
      ∀ i, (t'.entries i).valid = true → (t'.entries i).isPartner = true

/-- The UUIDs of the valid entries are in the state that their own operations leave them in. -/
def UuidsFormatted (f : NodeIndex → Node) : Prop :=
  ∀ i, (f i).valid = true → (f i).uuid.Formatted

/-- The UUID that the operation is called with comes from the operations of its class. -/
def Op.Formatted : Op → Prop
  | .internNode uuid => uuid.Formatted
  | _ => True

theorem newNodeTable_invalid (i : NodeIndex) : (newNodeTable.entries i).valid = false := rfl

section Formatted

variable {f f' : NodeIndex → Node} {uuid : UUID} {r : Option NodeIndex}

theorem UuidsFormatted.update (hf : UuidsFormatted f) {node : Node} (hn : node.uuid.Formatted) :
    UuidsFormatted (Function.update f i node) := by
  intro j hj
  by_cases hij : j = i
  · subst hij
    rwa [Function.update_self]
  · rw [Function.update_of_ne hij] at hj ⊢
    exact hf j hj

theorem UuidsFormatted.interns (hf : UuidsFormatted f) (hu : uuid.Formatted)
    (h : nodeEntry.Interns f uuid r f') : UuidsFormatted f' := by
  cases h with
  | found => exact hf
  | placed => exact hf.update hu
  | full => exact hf

theorem UuidsFormatted.clear (hf : UuidsFormatted t.entries) :
    UuidsFormatted (clearPartners t).entries := by
  intro j hj
  simp only [clearPartners] at hj ⊢
  split at hj
  · rename_i hp
    rw [if_pos hp]
    exact hf j hj
  · rename_i hp
    rw [if_neg hp]
    exact hf j hj

theorem UuidsFormatted.remove (hf : UuidsFormatted f) :
    UuidsFormatted (nodeEntry.remove f uuid) := by
  intro j hj
  cases hi : nodeEntry.hit f (nodeEntry.keyOf uuid) j with
  | true =>
    exact absurd hj (Bool.eq_false_iff.mp (Entry.remove_of_hit hi))
  | false =>
    rw [Entry.remove_of_ne hi] at hj ⊢
    exact hf j hj

/-- `load_cache` interns a UUID that it parsed. -/
theorem UuidsFormatted.loadCache {t' : Table nodeTableSize Node} {file : Option (List UInt8)}
    (hf : UuidsFormatted t.entries) (h : loadCache t file buffer = some t') :
    UuidsFormatted t'.entries := by
  cases file with
  | none =>
    obtain rfl := Option.some.inj h
    exact hf
  | some contents =>
    rw [Monitor.loadCache] at h
    split at h
    · cases h
    · rename_i buffer' _
      split at h
      · rename_i j t₁ hr
        obtain rfl := Option.some.inj h
        have hspec := internNode_spec (clearPartners t)
          (.ofString fun i => buffer' (i.castLE (by decide)))
        rw [hr] at hspec
        have hj := (Entry.hit_iff.mp (hspec.finds.1 j rfl)).1
        have hf₁ := hf.clear.interns (UUID.ofString_formatted _) hspec
        exact hf₁.update (hf₁ j hj)
      · cases h

theorem Step.uuidsFormatted {s s' : State} {e : Op} (hf : UuidsFormatted s.nodes.entries)
    (he : e.Formatted) (h : Step s e s') : UuidsFormatted s'.nodes.entries := by
  cases h with
  | loadCache h => exact hf.loadCache h
  | clearPartners => exact hf.clear
  | internNode => exact hf.interns he (internNode_spec _ _)
  | removeNode => exact hf.remove
  | internNeighbor => exact hf
  | removeNeighbor => exact hf
  | makePartner => exact hf
  | @setNode x j i _ hv =>
    dsimp only [Peer.setNode]
    split
    · exact hf.update (hf i hv)
    · exact hf

/-- In every run the UUIDs of the valid entries are formatted. -/
theorem always_uuidsFormatted {s : State} {h : List (State × Op)} (hr : Run Step .initial h s)
    (hm : Meets (fun _ e => e.Formatted) h) :
    Always (fun s => UuidsFormatted s.nodes.entries) h s :=
  hr.always (fun i hi => absurd hi (Bool.eq_false_iff.mp (newNodeTable_invalid i)))
    (fun _ _ _ hf he hs => hs.uuidsFormatted hf he) hm

end Formatted

/-- The file holds the text of the first partner, if there is one. -/
theorem saveCache_file (t : Table nodeTableSize Node) : (saveCache t).1 =
    match (List.finRange nodeTableSize).find? fun i => (t.entries i).isPartner with
    | none => []
    | some i => (t.entries i).uuid.text ++ [10] := by
  have hlater : ∀ (l : List NodeIndex) (saved : List UInt8 × ℕ), saved.2 ≠ 0 →
      (l.foldl (fun saved i => saveEntry saved (t.entries i)) saved).1 = saved.1 := by
    intro l
    induction l with
    | nil => exact fun _ _ => rfl
    | cons i l ih =>
      intro saved hne
      rw [List.foldl_cons]
      by_cases hp : (t.entries i).isPartner = true
      · have hentry : saveEntry saved (t.entries i) = (saved.1, saved.2 + 1) := by
          rw [saveEntry, if_pos hp, if_neg hne]
        rw [hentry, ih _ (Nat.succ_ne_zero _)]
      · have hentry : saveEntry saved (t.entries i) = saved := by rw [saveEntry, if_neg hp]
        rw [hentry, ih saved hne]
  have hfirst : ∀ l : List NodeIndex,
      (l.foldl (fun saved i => saveEntry saved (t.entries i)) ([], 0)).1 =
        match l.find? fun i => (t.entries i).isPartner with
        | none => []
        | some i => (t.entries i).uuid.text ++ [10] := by
    intro l
    induction l with
    | nil => rfl
    | cons i l ih =>
      rw [List.foldl_cons, saveEntry]
      by_cases hp : (t.entries i).isPartner = true
      · rw [if_pos hp, hlater _ _ (Nat.succ_ne_zero _),
          List.find?_cons_of_pos (p := fun i => (t.entries i).isPartner) hp]
        rfl
      · rw [if_neg hp, ih, List.find?_cons_of_neg (p := fun i => (t.entries i).isPartner) hp]
  rw [saveCache, hfirst]

/-- A token without white space, and a newline after it, is scanned as it stands. -/
theorem scanToken_line {token : List UInt8} (hne : token ≠ []) (hlen : token.length < 80)
    (hprinted : ∀ c ∈ token, isspace c = false) :
    scanToken (token ++ [10]) buffer = some fun i : Fin 80 =>
      if i.val < token.length then token.getD i 0
      else if i.val = token.length then 0 else buffer i := by
  have hdrop : (token ++ [10]).dropWhile isspace = token ++ [10] := by
    cases token with
    | nil => exact absurd rfl hne
    | cons c token =>
      rw [List.cons_append, List.dropWhile_cons_of_neg]
      simp [hprinted c List.mem_cons_self]
  have htake : (token ++ [10]).takeWhile (fun c => !isspace c) = token := by
    rw [List.takeWhile_append_of_pos (by simpa using hprinted)]
    simp [isspace]
  rw [scanToken, hdrop, htake, if_neg hne, if_neg (by omega)]

/-- The text of a formatted UUID, scanned into the buffer, is parsed as its bytes. -/
theorem scan_text (buffer : Fin 80 → UInt8) {u : UUID} (hu : u.Formatted) :
    ∃ buffer', scanToken (u.text ++ [10]) buffer = some buffer' ∧
      (UUID.ofString fun i => buffer' (i.castLE (by decide))).data = u.data := by
  have htext := hu.text
  have hlength : u.text.length = 36 := by rw [htext, List.length_ofFn]
  have hprinted : ∀ c ∈ u.text, isspace c = false := by
    intro c hc
    rw [htext] at hc
    obtain ⟨i, rfl⟩ := List.mem_ofFn.mp hc
    exact UUID.isspace_format u.data i
  refine ⟨_, scanToken_line (by rintro h; simp [h] at hlength) (by omega) hprinted, ?_⟩
  rw [UUID.ofString]
  refine (congrArg UUID.parse ?_).trans (UUID.parse_format u.data)
  funext c
  refine Fin.lastCases ?_ (fun c => ?_) c
  · rw [UUID.format_last]
    exact Function.update_self ..
  · have hne : c.castSucc ≠ (36 : Fin 37) := Fin.castSucc_ne_last c
    have hc := c.isLt
    rw [Function.update_of_ne hne]
    simp only [Fin.val_castLE, Fin.val_castSucc, hlength, if_pos hc]
    rw [htext, List.getD_eq_getElem?_getD, List.getElem?_ofFn, dif_pos hc]
    rfl

theorem clearPartners_new : clearPartners newNodeTable = newNodeTable := by
  rw [clearPartners, newNodeTable, Table.mk.injEq]
  refine ⟨?_, rfl, rfl⟩
  funext i
  exact if_neg (by simp [Node.isPartner, Node.invalidate])

/-- In a new table the only valid entry afterwards is the partner made from the buffer. -/
theorem loadCache_new {contents : List UInt8} {buffer' : Fin 80 → UInt8}
    (hscan : scanToken contents buffer = some buffer') :
    ∃ t' i, loadCache newNodeTable (some contents) buffer = some t' ∧
      (∀ j, (t'.entries j).valid = true ↔ j = i) ∧ (t'.entries i).isPartner = true ∧
      (t'.entries i).uuid = .ofString fun i => buffer' (i.castLE (by decide)) := by
  have hspec := internNode_spec newNodeTable
    (.ofString fun i => buffer' (i.castLE (by decide)))
  rw [loadCache, hscan]
  dsimp only
  rw [clearPartners_new]
  rcases hr : internNode newNodeTable (.ofString fun i => buffer' (i.castLE (by decide))) with
    ⟨r, t₁⟩
  rw [hr] at hspec
  dsimp only at hspec
  generalize ht₁ : t₁.entries = f at hspec
  cases hspec with
  | @found i hi =>
    have hv := (Entry.hit_iff.mp hi).1
    cases hv
  | full _ hl =>
    have hv := nodeEntry.lastFree_none hl ⟨0, by decide⟩
    cases hv
  | @placed i _ _ =>
    refine ⟨_, i, rfl, fun j => ?_, ?_, ?_⟩
    · by_cases hj : j = i
      · subst hj
        simp [ht₁, Node.makePartner, nodeEntry, Node.setUuid]
      · simp [ht₁, hj, newNodeTable_invalid]
    · simp [ht₁, Node.isPartner, Node.makePartner, nodeEntry, Node.setUuid]
    · simp [ht₁, Node.makePartner, nodeEntry, Node.setUuid]

/-- Loading a partner's text makes just that partner. -/
theorem cacheRoundTrip_of_partner (hs : SinglePartner t.entries) (hf : UuidsFormatted t.entries)
    (hi : (t.entries i).isPartner = true) : CacheRoundTrip t buffer := by
  have hvalid : (t.entries i).valid = true := by
    rw [Node.isPartner, Bool.and_eq_true] at hi
    exact hi.1
  have hfile : (saveCache t).1 = (t.entries i).uuid.text ++ [10] := by
    rw [saveCache_file]
    cases hfind : (List.finRange nodeTableSize).find? fun i => (t.entries i).isPartner with
    | none => exact absurd hi (by simpa using List.find?_eq_none.mp hfind i (List.mem_finRange i))
    | some j =>
      obtain rfl := hs i j hi (by simpa using List.find?_some hfind)
      rfl
  obtain ⟨buffer', hscan, hdata⟩ := scan_text buffer (hf i hvalid)
  obtain ⟨t', j, hload, honly, hpartner, huuid⟩ := loadCache_new hscan
  have hids : ∀ k, (t'.entries k).isPartner = true → k = j := by
    intro k hk
    rw [Node.isPartner, Bool.and_eq_true] at hk
    exact (honly k).mp hk.1
  refine ⟨t', hfile ▸ hload, ?_, fun k hk => (honly k).mp hk ▸ hpartner⟩
  apply Set.ext
  intro d
  constructor
  · rintro ⟨k, hk, rfl⟩
    obtain rfl := hids k hk
    exact ⟨i, hi, by rw [huuid, hdata]⟩
  · rintro ⟨k, hk, rfl⟩
    obtain rfl := hs k i hk hi
    exact ⟨j, hpartner, by rw [huuid, hdata]⟩

/-- From an empty file `load_cache` makes a partner all the same. -/
theorem not_cacheRoundTrip_of_none (hnone : ∀ i, (t.entries i).isPartner = false) :
    ¬ CacheRoundTrip t buffer := by
  rintro ⟨t', hload, hids, -⟩
  have hfile : (saveCache t).1 = [] := by
    have hfind : (List.finRange nodeTableSize).find? (fun i => (t.entries i).isPartner) = none :=
      List.find?_eq_none.mpr fun i _ => by simp [hnone i]
    rw [saveCache_file, hfind]
  have hscan : scanToken [] buffer = some buffer := rfl
  obtain ⟨t₁, j, hload', -, hpartner, -⟩ := loadCache_new hscan
  rw [hfile, hload'] at hload
  obtain rfl := Option.some.inj hload
  have hmem : (t₁.entries j).uuid.data ∈ partnerIds t₁ := ⟨j, hpartner, rfl⟩
  rw [hids] at hmem
  obtain ⟨k, hk, -⟩ := hmem
  rw [hnone k] at hk
  cases hk

/-- With at most one partner the cache brings it back if and only if there is one. -/
theorem cacheRoundTrip_iff (hs : ¬ reportsBug t) (hf : UuidsFormatted t.entries) :
    CacheRoundTrip t buffer ↔ ∃ i, (t.entries i).isPartner = true := by
  rw [reportsBug_iff] at hs
  constructor
  · intro h
    by_contra hnone
    simp only [not_exists, Bool.not_eq_true] at hnone
    exact not_cacheRoundTrip_of_none hnone h
  · rintro ⟨i, hi⟩
    exact cacheRoundTrip_of_partner hs hf hi

/-- A table with one partner, in its first slot. -/
def onePartner (uuid : UUID) : Table nodeTableSize Node where
  entries := Function.update newNodeTable.entries ⟨0, by decide⟩
    ((Node.zero.setUuid uuid).makePartner)
  warningReported := false
  errorReported := false

theorem cacheRoundTrip_iff_one :
    CacheRoundTrip (onePartner (.ofData fun _ => 0xAB)) fun _ => 0 := by
  have hother : ∀ i : NodeIndex, i ≠ ⟨0, by decide⟩ →
      ((onePartner (.ofData fun _ => 0xAB)).entries i).valid = false := by
    intro i hi
    rw [onePartner]
    dsimp only
    rw [Function.update_of_ne hi]
    exact newNodeTable_invalid i
  refine (cacheRoundTrip_iff ((reportsBug_iff _).mpr ?_) ?_).mpr ⟨⟨0, by decide⟩, rfl⟩
  · intro i j hi hj
    have hzero : ∀ k : NodeIndex,
        ((onePartner (.ofData fun _ => 0xAB)).entries k).isPartner = true →
          k = ⟨0, by decide⟩ := by
      intro k hk
      by_contra hne
      rw [Node.isPartner, hother k hne] at hk
      cases hk
    rw [hzero i hi, hzero j hj]
  · intro i hi
    by_cases hne : i = ⟨0, by decide⟩
    · subst hne
      rw [onePartner]
      dsimp only
      rw [Function.update_self]
      exact UUID.ofData_formatted _
    · rw [hother i hne] at hi
      cases hi

/-- A new monitor saves an empty cache; loading it makes a partner of a buffer of zeros. -/
theorem not_cacheRoundTrip : ¬ reportsBug newNodeTable ∧ UuidsFormatted newNodeTable.entries ∧
    (∃ t' i, loadCache newNodeTable (some (saveCache newNodeTable).1) (fun _ => 0) = some t' ∧
      (t'.entries i).isPartner = true) ∧
    ¬ CacheRoundTrip newNodeTable (fun _ => 0) := by
  have hnone : ∀ i, (newNodeTable.entries i).isPartner = false := fun i => rfl
  have hfile : (saveCache newNodeTable).1 = [] := by
    have hfind : (List.finRange nodeTableSize).find?
        (fun i => (newNodeTable.entries i).isPartner) = none :=
      List.find?_eq_none.mpr fun i _ => by simp [hnone i]
    rw [saveCache_file, hfind]
  refine ⟨(reportsBug_iff _).mpr ?_, fun i hi => ?_, ?_, not_cacheRoundTrip_of_none hnone⟩
  · intro i j hi
    rw [hnone i] at hi
    cases hi
  · rw [newNodeTable_invalid i] at hi
    cases hi
  · have hscan : scanToken [] (fun _ => 0) = some fun _ => 0 := rfl
    obtain ⟨t', i, hload, -, hpartner, -⟩ := loadCache_new hscan
    exact ⟨t', i, hfile ▸ hload, hpartner⟩

end Redx.Monitor
