import KeySampling.KeyTable.Entries
import KeySampling.Proofs.KeyTable.Probing
import Mathlib.Data.List.Nodup

/-! Tables with summaries, seen as their lists of entries. In a well-formed table a summary sits
in exactly the occupied slots. Adding a key puts one entry somewhere into the list, and moving
entries to a table of another size permutes them: nothing is lost and nothing is paired anew. -/
namespace KeySampling

theorem zipSet {α β : Type} (as : List α) (bs : List β) (i : Nat) (a : α) (b : β) :
    (as.set i a).zip (bs.set i b) = (as.zip bs).set i (a, b) := by
  induction as generalizing bs i with
  | nil => simp
  | cons x xs ih =>
    cases bs with
    | nil => cases i <;> simp
    | cons y ys => cases i <;> simp [ih]

theorem filterMapSplit {α β : Type} (f : α → Option β) {l : List α} {i : Nat} {a : α}
    (here : l[i]? = some a) :
    ∃ pre post, l.filterMap f = pre ++ (f a).toList ++ post ∧
      ∀ b, (l.set i b).filterMap f = pre ++ (f b).toList ++ post := by
  obtain ⟨inside, rfl⟩ := List.getElem?_eq_some_iff.mp here
  have put (b : α) : l.set i b = l.take i ++ b :: l.drop (i + 1) := by
    rw [List.set_eq_take_append_cons_drop, if_pos inside]
  have split (b : α) : (l.set i b).filterMap f =
      (l.take i).filterMap f ++ (f b).toList ++ (l.drop (i + 1)).filterMap f := by
    rw [put, List.filterMap_append, List.append_assoc]
    congr 1
    cases shown : f b <;> simp [shown]
  refine ⟨_, _, ?_, split⟩
  rw [← split, List.set_getElem_self]

section Lookup
variable {σ : Type} {key : Int} {s : σ} {entries : List (Int × σ)}

theorem lookupEntry (nodup : (entries.map Prod.fst).Nodup) (member : (key, s) ∈ entries) :
    entries.lookup key = some s := by
  obtain ⟨pre, post, rfl⟩ := List.append_of_mem member
  rw [List.lookup_eq_some_iff]
  refine ⟨pre, post, rfl, fun e before => ?_⟩
  rw [List.map_append, List.nodup_append] at nodup
  have apart := nodup.2.2 e.1 (List.mem_map_of_mem before) key (by simp)
  simpa using apart.symm

theorem lookupMember (found : entries.lookup key = some s) : (key, s) ∈ entries := by
  obtain ⟨pre, post, rfl, _⟩ := List.lookup_eq_some_iff.mp found
  simp

theorem lookupKey (entries : List (Int × σ)) :
    (∃ s, entries.lookup key = some s) ↔ key ∈ entries.map Prod.fst := by
  rw [← Option.isSome_iff_exists, List.lookup_isSome_iff]
  simp

theorem lookupPerm {entries' : List (Int × σ)} (nodup : (entries.map Prod.fst).Nodup)
    (perm : entries.Perm entries') (key : Int) : entries.lookup key = entries'.lookup key := by
  have nodup' := (perm.map Prod.fst).nodup_iff.mp nodup
  ext s
  exact ⟨fun found => lookupEntry nodup' (perm.mem_iff.mp (lookupMember found)),
    fun found => lookupEntry nodup (perm.mem_iff.mpr (lookupMember found))⟩

theorem lookupFilter (keep : Int → Bool) (entries : List (Int × σ)) (key : Int) :
    (entries.filter fun e => keep e.1).lookup key =
      if keep key then entries.lookup key else none := by
  induction entries with
  | nil => simp
  | cons e rest ih =>
    obtain ⟨head, summary⟩ := e
    by_cases same : key = head
    · subst same
      cases kept : keep key <;> simp [kept, ih]
    · cases kept : keep head <;> simp [kept, ih, List.lookup_cons, beq_false_of_ne same]

theorem filterKeys (keep : Int → Prop) [DecidablePred keep] (entries : List (Int × σ)) (key : Int) :
    key ∈ (entries.filter fun e => decide (keep e.1)).map Prod.fst ↔
      key ∈ entries.map Prod.fst ∧ keep key := by
  simp only [List.mem_map, List.mem_filter, decide_eq_true_eq]
  constructor
  · rintro ⟨e, ⟨member, kept⟩, rfl⟩
    exact ⟨⟨e, member, rfl⟩, kept⟩
  · rintro ⟨⟨e, member, rfl⟩, kept⟩
    exact ⟨e, ⟨member, kept⟩, rfl⟩

end Lookup

theorem keyFits {key : Int} (nonneg : 0 ≤ key) (bound : key ≤ maxTheta) :
    fitsSigned64 key = true := by
  unfold maxTheta at bound
  simp only [fitsSigned64, Bool.and_eq_true, decide_eq_true_eq]
  omega

namespace EntryTable
variable {σ : Type} {t : EntryTable σ}

def slots (t : EntryTable σ) : List (Int × Option σ) := t.keys.toList.zip t.summaries.toList

def shown : Int × Option σ → Option (Int × σ)
  | (key, summary) => if key = 0 then none else summary.map (key, ·)

theorem entriesSlots (t : EntryTable σ) : t.entries = t.slots.filterMap shown := rfl

def keySet (t : EntryTable σ) : List Int := t.entries.map Prod.fst

structure WellFormed (t : EntryTable σ) : Prop where
  keys : t.keys.Reachable t.lg
  size : t.summaries.size = pow2 t.lg
  paired : ∀ slot key, t.keys[slot]? = some key → (key = 0 ↔ t.summaryAt? slot = none)
  counted : t.count = t.entries.length

theorem blankWellFormed (lg : Nat) : (blank lg : EntryTable σ).WellFormed := by
  have nothing (slot : Nat) : (blank lg : EntryTable σ).summaryAt? slot = none := by
    simp only [blank, summaryAt?, Array.getElem?_replicate]
    split <;> rfl
  refine ⟨KeyTable.blankReachable lg, by simp [blank], ?_, ?_⟩
  · intro slot key read
    simp only [blank, KeyTable.blank, Array.getElem?_replicate] at read
    split at read <;> simp_all
  · simp [blank, entriesSlots, slots, shown, KeyTable.blank]

theorem blankEntries (lg : Nat) : (blank lg : EntryTable σ).entries = [] := by
  simp [blank, entriesSlots, slots, shown, KeyTable.blank]

section WellFormed

theorem slotBound (wf : t.WellFormed) {slot : Nat} {key : Int} (read : t.keys[slot]? = some key) :
    slot < t.summaries.size := by
  obtain ⟨inside, _⟩ := Array.getElem?_eq_some_iff.mp read
  rw [wf.size, ← wf.keys.size]
  exact inside

theorem slotKey {slot : Nat} {e : Int × Option σ} (here : t.slots[slot]? = some e) :
    t.keys[slot]? = some e.1 := by
  simpa using (List.getElem?_zip_eq_some.mp here).1

theorem slotRead (wf : t.WellFormed) {slot : Nat} {key : Int} (read : t.keys[slot]? = some key) :
    t.slots[slot]? = some (key, t.summaryAt? slot) := by
  have bound := slotBound wf read
  rw [slots, List.getElem?_zip_eq_some]
  simp [read, summaryAt?, bound]

theorem entryIff (wf : t.WellFormed) (key : Int) (summary : σ) :
    (key, summary) ∈ t.entries ↔
      key ≠ 0 ∧ ∃ slot : Nat, t.keys[slot]? = some key ∧ t.summaryAt? slot = some summary := by
  rw [entriesSlots, List.mem_filterMap]
  constructor
  · rintro ⟨⟨held, summary?⟩, member, shows⟩
    obtain ⟨slot, at'⟩ := List.getElem?_of_mem member
    have read := slotKey at'
    rw [slotRead wf read] at at'
    cases at'
    simp only [shown] at shows
    split at shows
    · simp at shows
    · rename_i nonzero
      obtain ⟨inner, present, same⟩ := Option.map_eq_some_iff.mp shows
      cases same
      exact ⟨nonzero, slot, read, present⟩
  · rintro ⟨nonzero, slot, read, present⟩
    refine ⟨_, List.mem_of_getElem? (slotRead wf read), ?_⟩
    simp [shown, nonzero, present]

theorem keyIff (wf : t.WellFormed) (key : Int) : key ∈ t.keySet ↔ key ≠ 0 ∧ key ∈ t.keys := by
  simp only [keySet, List.mem_map, Prod.exists, exists_and_right, exists_eq_right]
  constructor
  · rintro ⟨summary, member⟩
    obtain ⟨nonzero, slot, read, _⟩ := (entryIff wf key summary).mp member
    exact ⟨nonzero, Array.mem_of_getElem? read⟩
  · rintro ⟨nonzero, member⟩
    obtain ⟨slot, read⟩ := Array.getElem?_of_mem member
    obtain ⟨summary, present⟩ := Option.ne_none_iff_exists'.mp
      (fun absent => nonzero ((wf.paired slot key read).mpr absent))
    exact ⟨summary, (entryIff wf key summary).mpr ⟨nonzero, slot, read, present⟩⟩

theorem keyNonzero (wf : t.WellFormed) {key : Int} (member : key ∈ t.keySet) : key ≠ 0 :=
  ((keyIff wf key).mp member).1

theorem keysNodup (wf : t.WellFormed) : t.keySet.Nodup := by
  rw [keySet, List.Nodup, List.pairwise_map, entriesSlots, List.pairwise_filterMap,
    List.pairwise_iff_getElem]
  intro i j hi hj before a left b right same
  have look (n : Nat) (inside : n < t.slots.length) (e : Int × σ)
      (shows : shown t.slots[n] = some e) : e.1 ≠ 0 ∧ t.keys[n]? = some e.1 := by
    have read := slotKey (List.getElem?_eq_getElem inside)
    simp only [shown] at shows
    split at shows
    · simp at shows
    · rename_i nonzero
      obtain ⟨summary, _, rfl⟩ := Option.map_eq_some_iff.mp shows
      exact ⟨nonzero, read⟩
  obtain ⟨nonzero, here⟩ := look i hi a left
  have there := (look j hj b right).2
  have := KeyTable.storedOnce wf.keys nonzero here (same ▸ there)
  omega

theorem slotsLength (wf : t.WellFormed) : t.slots.length = pow2 t.lg := by
  simp [slots, List.length_zip, wf.keys.size, wf.size]

theorem countBound (wf : t.WellFormed) : t.count ≤ pow2 t.lg := by
  rw [wf.counted, entriesSlots, ← slotsLength wf]
  exact List.length_filterMap_le _ _

theorem keySetLength (wf : t.WellFormed) : t.keySet.length = t.count := by
  rw [keySet, List.length_map, wf.counted]

theorem countPositive (wf : t.WellFormed) {key : Int} (member : key ∈ t.keySet) : 0 < t.count := by
  rw [← keySetLength wf]
  exact List.length_pos_of_mem member

theorem vacantSlot (wf : t.WellFormed) (room : t.entries.length < pow2 t.lg) :
    ∃ slot : Nat, t.keys[slot]? = some 0 := by
  rw [entriesSlots, ← slotsLength wf, List.length_filterMap_lt_length_iff_exists] at room
  obtain ⟨⟨key, summary?⟩, member, hidden⟩ := room
  obtain ⟨slot, here⟩ := List.getElem?_of_mem member
  have read := slotKey here
  rw [slotRead wf read] at here
  cases here
  by_cases vacant : key = 0
  · exact ⟨slot, vacant ▸ read⟩
  · have present := mt (wf.paired slot key read).mpr vacant
    simp_all [shown]

theorem fullCount (wf : t.WellFormed) (full : 0 ∉ t.keys) : t.count = pow2 t.lg := by
  refine le_antisymm (countBound wf) (not_lt.mp fun room => ?_)
  obtain ⟨slot, vacant⟩ := vacantSlot wf (wf.counted ▸ room)
  exact full (Array.mem_of_getElem? vacant)

end WellFormed

structure Gains (t : EntryTable σ) (key : Int) (summary : σ) (next : EntryTable σ) : Prop where
  wellFormed : next.WellFormed
  lg : next.lg = t.lg
  entries : ∃ pre post, t.entries = pre ++ post ∧ next.entries = pre ++ (key, summary) :: post

structure Replaces (t : EntryTable σ) (key : Int) (old new : σ) (next : EntryTable σ) :
    Prop where
  wellFormed : next.WellFormed
  lg : next.lg = t.lg
  entries : ∃ pre post, t.entries = pre ++ (key, old) :: post ∧
    next.entries = pre ++ (key, new) :: post

theorem placeGains (wf : t.WellFormed) {key : Int} (nonzero : key ≠ 0) {slot : Nat}
    {next : KeyTable} (places : KeyTable.Places t.keys t.lg key slot next) (summary : σ) :
    Gains t key summary
      ⟨t.lg, next, t.summaries.setIfInBounds slot (some summary), t.count + 1⟩ := by
  obtain ⟨inside, _⟩ := Array.getElem?_eq_some_iff.mp places.vacant
  have bound := slotBound wf places.vacant
  obtain ⟨pre, post, before, after⟩ := filterMapSplit shown (slotRead wf places.vacant)
  have added : (EntryTable.mk t.lg next (t.summaries.setIfInBounds slot (some summary))
      (t.count + 1)).entries = pre ++ (key, summary) :: post := by
    simpa [entriesSlots, slots, places.placed, zipSet, shown, nonzero] using
      after (key, some summary)
  have unchanged : t.entries = pre ++ post := by simpa [entriesSlots, shown] using before
  refine ⟨⟨places.reachable, by simpa using wf.size, ?_, ?_⟩, rfl, pre, post, unchanged, added⟩
  · intro other held read
    simp only [places.placed] at read
    by_cases here : slot = other
    · subst here
      rw [Array.getElem?_setIfInBounds_self, if_pos inside] at read
      have same : key = held := Option.some.inj read
      simp [summaryAt?, bound, ← same, nonzero]
    · rw [Array.getElem?_setIfInBounds_ne here] at read
      simpa [summaryAt?, Array.getElem?_setIfInBounds_ne here] using wf.paired other held read
  · rw [added, wf.counted, unchanged]
    simp only [List.length_append, List.length_cons]
    omega

theorem setSummaryReplaces (wf : t.WellFormed) {key : Int} (nonzero : key ≠ 0) {slot : Nat}
    (read : t.keys[slot]? = some key) {old : σ} (present : t.summaryAt? slot = some old)
    (new : σ) : Replaces t key old new (t.setSummary slot new) := by
  obtain ⟨inside, held⟩ := Array.getElem?_eq_some_iff.mp read
  have bound := slotBound wf read
  have kept : t.keys.toList.set slot key = t.keys.toList := by
    rw [← held]
    exact List.set_getElem_self inside
  obtain ⟨pre, post, before, after⟩ := filterMapSplit shown (slotRead wf read)
  have replaced : (t.setSummary slot new).entries = pre ++ (key, new) :: post := by
    have := after (key, some new)
    rw [slots, ← zipSet, kept] at this
    simpa [entriesSlots, slots, setSummary, shown, nonzero] using this
  have original : t.entries = pre ++ (key, old) :: post := by
    simpa [entriesSlots, shown, nonzero, present] using before
  refine ⟨⟨wf.keys, by simpa [setSummary] using wf.size, ?_, ?_⟩, rfl, pre, post, original,
    replaced⟩
  · intro other held read'
    by_cases here : slot = other
    · subst here
      have same := Option.some.inj (read.symm.trans read')
      simp [setSummary, summaryAt?, bound, ← same, nonzero]
    · simpa [setSummary, summaryAt?, Array.getElem?_setIfInBounds_ne here] using
        wf.paired other held read'
  · rw [replaced, show (t.setSummary slot new).count = t.count from rfl, wf.counted, original]
    simp

theorem insertGains (wf : t.WellFormed) {key : Int} (nonzero : key ≠ 0) (absent : key ∉ t.keySet)
    {summary : σ} {next : EntryTable σ} (ok : t.insert key summary = .ok next) :
    Gains t key summary next := by
  have unseen : key ∉ t.keys := fun member => absent ((keyIff wf key).mpr ⟨nonzero, member⟩)
  obtain ⟨lg, keys, summaries, count⟩ := t
  simp only [insert] at ok
  split at ok <;> try contradiction
  rename_i slot grown placed
  cases Except.ok.inj ok
  exact placeGains wf nonzero (KeyTable.insertPlaces wf.keys unseen placed) summary

theorem insertRoom (wf : t.WellFormed) {key : Int} (fits : fitsSigned64 key = true)
    (room : t.entries.length < pow2 t.lg) (summary : σ) :
    ∃ next, t.insert key summary = .ok next := by
  obtain ⟨slot, vacant⟩ := vacantSlot wf room
  obtain ⟨lg, keys, summaries, count⟩ := t
  obtain ⟨_, grown, placed⟩ := KeyTable.insertRoom wf.keys.size vacant fits
  simp only at placed
  simp [insert, placed]

theorem gainsPerm {key : Int} {summary : σ} {next : EntryTable σ}
    (gains : Gains t key summary next) : next.entries.Perm ((key, summary) :: t.entries) := by
  obtain ⟨pre, post, before, after⟩ := gains.entries
  rw [before, after]
  exact List.perm_middle

theorem gainsCount (wf : t.WellFormed) {key : Int} {summary : σ} {next : EntryTable σ}
    (gains : Gains t key summary next) : next.count = t.count + 1 := by
  rw [gains.wellFormed.counted, wf.counted, (gainsPerm gains).length_eq, List.length_cons]

theorem gainsRoom (wf : t.WellFormed) {key : Int} {summary : σ} {next : EntryTable σ}
    (gains : Gains t key summary next) : t.count < pow2 t.lg := by
  have bound := countBound gains.wellFormed
  rw [gainsCount wf gains, gains.lg] at bound
  exact bound

theorem gainsKeys {key : Int} {summary : σ} {next : EntryTable σ}
    (gains : Gains t key summary next) (other : Int) :
    other ∈ next.keySet ↔ other = key ∨ other ∈ t.keySet := by
  rw [keySet, ((gainsPerm gains).map Prod.fst).mem_iff]
  exact List.mem_cons

structure Holds (t : EntryTable σ) (lg : Nat) (entries : List (Int × σ)) : Prop where
  wellFormed : t.WellFormed
  lg : t.lg = lg
  entries : t.entries.Perm entries

theorem holdsCount {lg : Nat} {entries : List (Int × σ)} (holds : t.Holds lg entries) :
    t.count = entries.length :=
  holds.wellFormed.counted.trans holds.entries.length_eq

structure Separate (entries : List (Int × σ)) : Prop where
  nodup : (entries.map Prod.fst).Nodup
  nonzero : ∀ e ∈ entries, e.1 ≠ 0

theorem separateEntries (wf : t.WellFormed) : Separate t.entries :=
  ⟨keysNodup wf, fun _ member => keyNonzero wf (List.mem_map_of_mem member)⟩

theorem separatePerm {a b : List (Int × σ)} (separate : Separate a) (perm : a.Perm b) :
    Separate b :=
  ⟨(perm.map Prod.fst).nodup_iff.mp separate.nodup,
    fun e member => separate.nonzero e (perm.mem_iff.mpr member)⟩

theorem separateFilter {entries : List (Int × σ)} (separate : Separate entries)
    (keep : Int × σ → Bool) : Separate (entries.filter keep) :=
  ⟨separate.nodup.sublist (List.filter_sublist.map Prod.fst),
    fun e member => separate.nonzero e (List.mem_of_mem_filter member)⟩

theorem insertAllHolds (wf : t.WellFormed) {new : List (Int × σ)}
    (separate : Separate (t.entries ++ new)) {next : EntryTable σ}
    (ok : t.insertAll new = .ok next) : Holds next t.lg (t.entries ++ new) := by
  induction new generalizing t with
  | nil =>
    cases Except.ok.inj ok
    exact ⟨wf, rfl, by simp⟩
  | cons e rest ih =>
    obtain ⟨key, summary⟩ := e
    simp only [insertAll] at ok
    split at ok <;> try contradiction
    rename_i grown added
    have nonzero := separate.nonzero (key, summary) (by simp)
    have absent : key ∉ t.keySet := by
      have nodup := separate.nodup
      rw [List.map_append, List.nodup_append] at nodup
      exact fun member => nodup.2.2 key member key (by simp) rfl
    have gains := insertGains wf nonzero absent added
    have moved : (grown.entries ++ rest).Perm (t.entries ++ (key, summary) :: rest) :=
      ((gainsPerm gains).append_right rest).trans List.perm_middle.symm
    have holds := ih gains.wellFormed (separatePerm separate moved.symm) ok
    exact ⟨holds.wellFormed, holds.lg.trans gains.lg, holds.entries.trans moved⟩

theorem insertAllRoom (wf : t.WellFormed) {new : List (Int × σ)}
    (separate : Separate (t.entries ++ new)) (fits : ∀ e ∈ new, fitsSigned64 e.1 = true)
    (room : t.entries.length + new.length ≤ pow2 t.lg) :
    ∃ next, t.insertAll new = .ok next := by
  induction new generalizing t with
  | nil => exact ⟨t, rfl⟩
  | cons e rest ih =>
    obtain ⟨key, summary⟩ := e
    simp only [List.length_cons] at room
    obtain ⟨grown, added⟩ := insertRoom wf (fits (key, summary) (by simp)) (by omega) summary
    have single : Holds grown t.lg (t.entries ++ [(key, summary)]) := by
      refine insertAllHolds wf (separatePerm ?_ (List.Perm.refl _)) (by simp [insertAll, added])
      have whole := separate
      rw [← List.singleton_append, ← List.append_assoc] at whole
      exact ⟨whole.nodup.sublist ((List.sublist_append_left _ _).map _),
        fun e member => whole.nonzero e (List.mem_append_left _ member)⟩
    have moved : (grown.entries ++ rest).Perm (t.entries ++ (key, summary) :: rest) := by
      simpa using single.entries.append_right rest
    obtain ⟨next, ok⟩ := ih single.wellFormed (separatePerm separate moved.symm)
      (fun e member => fits e (List.mem_cons_of_mem _ member))
      (by
        have := single.entries.length_eq
        rw [single.lg]
        simp only [List.length_append, List.length_singleton] at this
        omega)
    exact ⟨next, by simp [insertAll, added, ok]⟩

theorem ofEntriesHolds {lg : Nat} {entries : List (Int × σ)} (separate : Separate entries)
    {next : EntryTable σ} (ok : ofEntries lg entries = .ok next) : Holds next lg entries := by
  have holds := insertAllHolds (blankWellFormed lg) (by simpa [blankEntries] using separate)
    (ofEntriesFills ok)
  rw [blankEntries, List.nil_append] at holds
  exact holds

theorem ofEntriesRoom {lg : Nat} {entries : List (Int × σ)} (separate : Separate entries)
    (fits : ∀ e ∈ entries, fitsSigned64 e.1 = true) (room : entries.length ≤ pow2 lg)
    (allowed : lg ≤ largestLgTable ∨ mostKeys < entries.length) :
    ∃ next, ofEntries lg entries = .ok next := by
  rw [ofEntriesAllotted allowed]
  refine insertAllRoom (blankWellFormed lg) (by simpa [blankEntries] using separate) fits ?_
  rw [blankEntries, List.length_nil, Nat.zero_add]
  exact room

theorem rehashHolds (wf : t.WellFormed) {lg : Nat} {keepBelow : Int} {next : EntryTable σ}
    (ok : t.rehash lg keepBelow = .ok next) :
    Holds next lg (t.entries.filter fun e => decide (e.1 < keepBelow)) :=
  ofEntriesHolds (separateFilter (separateEntries wf) _) ok

theorem rehashRoom (wf : t.WellFormed) (fits : ∀ key ∈ t.keySet, fitsSigned64 key = true)
    {lg : Nat} {keepBelow : Int}
    (room : (t.entries.filter fun e => decide (e.1 < keepBelow)).length ≤ pow2 lg)
    (allowed : lg ≤ largestLgTable ∨
      mostKeys < (t.entries.filter fun e => decide (e.1 < keepBelow)).length) :
    ∃ next, t.rehash lg keepBelow = .ok next :=
  ofEntriesRoom (separateFilter (separateEntries wf) _)
    (fun _ member => fits _ (List.mem_map_of_mem (List.mem_of_mem_filter member))) room allowed

end EntryTable
end KeySampling
