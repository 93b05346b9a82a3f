import KeySampling.Proofs.Summary.Sharing

/-! What summaries hold, for any kind of summary in any kind of world. A reading gives the
contents of a summary in a world, or nothing for what is no summary there. The contracts of
copying and joining speak of contents only: they make summaries with the right contents and
change none that can be read. -/
namespace KeySampling
variable {ω σ τ : Type}

abbrev Reading (ω σ τ : Type) := ω → σ → Option τ

def Reading.Keeps (read : Reading ω σ τ) (w w' : ω) : Prop :=
  ∀ s x, read w s = some x → read w' s = some x

def Reading.Finds (read : Reading ω σ τ) (w : ω) (entries : List (Int × σ))
    (contents : Int → Option τ) : Prop :=
  ∀ e ∈ entries, ∃ x, contents e.1 = some x ∧ read w e.2 = some x

theorem keepsSelf (read : Reading ω σ τ) (w : ω) : read.Keeps w w := fun _ _ held => held

theorem keepsTrans {read : Reading ω σ τ} {a b c : ω} (first : read.Keeps a b)
    (second : read.Keeps b c) : read.Keeps a c := fun s x held => second s x (first s x held)

theorem findsKept {read : Reading ω σ τ} {w w' : ω} {entries : List (Int × σ)}
    {contents : Int → Option τ} (finds : read.Finds w entries contents)
    (keeps : read.Keeps w w') : read.Finds w' entries contents := by
  intro e member
  obtain ⟨x, said, held⟩ := finds e member
  exact ⟨x, said, keeps e.2 x held⟩

def SummaryOps.Copies (ops : SummaryOps ω σ) (read : Reading ω σ τ) : Prop :=
  ∀ w s x, read w s = some x →
    read (ops.copy s w).2 (ops.copy s w).1 = some x ∧ read.Keeps w (ops.copy s w).2

/-- A joined summary holds a function of what the two hold. -/
def Policy.Joins (policy : Policy ω σ) (read : Reading ω σ τ) (join : τ → τ → τ) : Prop :=
  ∀ w a b x y, read w a = some x → read w b = some y →
    read (policy a b w).2 (policy a b w).1 = some (join x y) ∧ read.Keeps w (policy a b w).2

theorem copyAllFinds {ops : SummaryOps ω σ} {read : Reading ω σ τ} (copies : ops.Copies read)
    {entries : List (Int × σ)} {contents : Int → Option τ} {w : ω}
    (finds : read.Finds w entries contents) :
    (ops.copyAll entries w).1.map Prod.fst = entries.map Prod.fst ∧
      read.Finds (ops.copyAll entries w).2 (ops.copyAll entries w).1 contents ∧
      read.Keeps w (ops.copyAll entries w).2 := by
  induction entries generalizing w with
  | nil => exact ⟨rfl, finds, keepsSelf read w⟩
  | cons e rest ih =>
    obtain ⟨key, s⟩ := e
    obtain ⟨x, said, held⟩ := finds (key, s) (by simp)
    obtain ⟨copied, kept⟩ := copies w s x held
    have later : read.Finds (ops.copy s w).2 rest contents :=
      findsKept (fun e member => finds e (List.mem_cons_of_mem _ member)) kept
    obtain ⟨keys, found, keeps⟩ := ih later
    simp only [SummaryOps.copyAll]
    refine ⟨by simp [keys], ?_, keepsTrans kept keeps⟩
    intro e member
    rcases List.mem_cons.mp member with same | old
    · subst e
      exact ⟨x, said, keeps _ _ copied⟩
    · exact found e old

/-! Summaries in a store. -/

theorem Store.allocKeeps (store : Store) (x : Summary) :
    Reading.Keeps Store.read? store (store.alloc x).2 := fun _ _ held => Store.readOld held x

theorem storedCopies (mode : Mode) : (SummaryOps.stored mode).Copies Store.read? := by
  intro store h x held
  have same : store.read h = x := by simp [Store.read, held]
  simp only [SummaryOps.stored, same]
  exact ⟨Store.readNew store x, Store.allocKeeps store x⟩

theorem storedJoins (join : Summary → Summary → Summary) :
    (Policy.stored join).Joins Store.read? join := by
  intro store a b x y left right
  have mine : store.read a = x := by simp [Store.read, left]
  have incoming : store.read b = y := by simp [Store.read, right]
  simp only [Policy.stored, mine, incoming]
  exact ⟨Store.readNew store _, Store.allocKeeps store _⟩

end KeySampling
