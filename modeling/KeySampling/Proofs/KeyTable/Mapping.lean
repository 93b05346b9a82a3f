import KeySampling.Proofs.KeyTable.Entries

/-! A table whose summaries are replaced, each by a function of itself. A table never looks at its
summaries, so they may as well be replaced before an operation as after it. It makes none either:
every summary that lies in some slot was put there. -/
namespace KeySampling
namespace EntryTable
variable {σ τ : Type} (f : σ → τ) (t : EntryTable σ)

def map : EntryTable τ := { t with summaries := t.summaries.map (Option.map f) }

@[simp] theorem mapLg : (t.map f).lg = t.lg := rfl

@[simp] theorem mapKeys : (t.map f).keys = t.keys := rfl

@[simp] theorem mapCount : (t.map f).count = t.count := rfl

theorem mapBlank (lg : Nat) : (blank lg).map f = blank lg := by
  simp [map, blank]

theorem mapEntries : (t.map f).entries = t.entries.map (Prod.map id f) := by
  have shows (e : Int × Option σ) :
      shown (Prod.map id (Option.map f) e) = (shown e).map (Prod.map id f) := by
    obtain ⟨key, summary⟩ := e
    by_cases vacant : key = 0 <;> cases summary <;> simp [shown, vacant]
  rw [entriesSlots, entriesSlots, slots, slots, map, Array.toList_map, List.zip_map_right,
    List.filterMap_map, List.map_filterMap]
  exact congrArg (List.filterMap · _) (funext shows)

theorem mapKeySet : (t.map f).keySet = t.keySet := by
  rw [keySet, keySet, mapEntries, List.map_map]
  rfl

theorem mapSummaryAt (slot : Nat) : (t.map f).summaryAt? slot = (t.summaryAt? slot).map f := by
  simp only [summaryAt?, map, Array.getElem?_map]
  cases t.summaries[slot]? <;> rfl

theorem mapSetSummary (slot : Nat) (s : σ) :
    (t.setSummary slot s).map f = (t.map f).setSummary slot (f s) := by
  simp [map, setSummary]

theorem mapInsert (key : Int) (s : σ) :
    (t.map f).insert key (f s) = (t.insert key s).map (EntryTable.map f) := by
  obtain ⟨lg, keys, summaries, count⟩ := t
  simp only [insert, map]
  split <;> simp [Except.map, map]

theorem mapInsertAll (new : List (Int × σ)) :
    (t.map f).insertAll (new.map (Prod.map id f)) = (t.insertAll new).map (EntryTable.map f) := by
  induction new generalizing t with
  | nil => rfl
  | cons e rest ih =>
    obtain ⟨key, s⟩ := e
    simp only [List.map_cons, Prod.map_apply, id_eq, insertAll, mapInsert]
    cases t.insert key s with
    | error fault => rfl
    | ok next => exact ih next

theorem mapOfEntries (lg : Nat) (entries : List (Int × σ)) :
    ofEntries lg (entries.map (Prod.map id f)) = (ofEntries lg entries).map (EntryTable.map f) := by
  by_cases allowed : lg ≤ largestLgTable ∨ mostKeys < entries.length
  · have allowed' : lg ≤ largestLgTable ∨ mostKeys < (entries.map (Prod.map id f)).length := by
      rwa [List.length_map]
    rw [ofEntriesAllotted allowed, ofEntriesAllotted allowed', ← mapInsertAll, mapBlank]
  · rw [not_or, not_le, not_lt] at allowed
    rw [ofEntriesRefused allowed.1 allowed.2,
      ofEntriesRefused allowed.1 (by rw [List.length_map]; exact allowed.2)]
    rfl

theorem mapRehash (lg : Nat) (bound : Int) :
    (t.map f).rehash lg bound = (t.rehash lg bound).map (EntryTable.map f) := by
  rw [rehash, rehash, mapEntries, List.filter_map, mapOfEntries]
  rfl

def Has (s : σ) : Prop := some s ∈ t.summaries

section Has
variable {t} {s : σ}

theorem mapAlike {f g : σ → τ} (alike : ∀ s, t.Has s → f s = g s) : t.map f = t.map g := by
  have same : t.summaries.map (Option.map f) = t.summaries.map (Option.map g) := by
    refine Array.map_congr_left fun held member => Option.map_congr ?_
    rintro s rfl
    exact alike s member
  simp only [map, same]

theorem hasEntry {e : Int × σ} (member : e ∈ t.entries) : t.Has e.2 := by
  rw [entriesSlots, List.mem_filterMap] at member
  obtain ⟨⟨key, summary⟩, slot, shows⟩ := member
  simp only [shown] at shows
  split at shows
  · simp at shows
  · obtain ⟨held, rfl, rfl⟩ := Option.map_eq_some_iff.mp shows
    exact Array.mem_toList_iff.mp (List.of_mem_zip slot).2

theorem hasSummaryAt {slot : Nat} (held : t.summaryAt? slot = some s) : t.Has s :=
  Array.mem_of_getElem? (Option.join_eq_some_iff.mp held)

theorem setHas {slot : Nat} {new : σ}
    (has : some s ∈ t.summaries.setIfInBounds slot (some new)) : t.Has s ∨ s = new :=
  (Array.mem_or_eq_of_mem_setIfInBounds has).imp_right Option.some.inj

theorem insertAllHas {new : List (Int × σ)} {next : EntryTable σ} (ok : t.insertAll new = .ok next)
    (has : next.Has s) : t.Has s ∨ ∃ e ∈ new, e.2 = s := by
  induction new generalizing t with
  | nil => exact .inl (Except.ok.inj ok ▸ has)
  | cons e rest ih =>
    obtain ⟨lg, keys, summaries, count⟩ := t
    simp only [insertAll, insert] at ok
    split at ok
    · simp at ok
    · rename_i grown placed
      split at placed
      · simp at placed
      · cases placed
        rcases ih ok with old | ⟨e', member, same⟩
        · rcases setHas (t := ⟨lg, keys, summaries, count⟩) old with old | rfl
          · exact .inl old
          · exact .inr ⟨e, by simp, rfl⟩
        · exact .inr ⟨e', List.mem_cons_of_mem _ member, same⟩

theorem blankHas (lg : Nat) (s : σ) : ¬ (blank lg).Has s := by
  simp [Has, blank]

theorem ofEntriesHas {lg : Nat} {entries : List (Int × σ)} (ok : ofEntries lg entries = .ok t)
    (has : t.Has s) : ∃ e ∈ entries, e.2 = s :=
  (insertAllHas (ofEntriesFills ok) has).resolve_left (blankHas lg s)

end Has
end EntryTable
end KeySampling
