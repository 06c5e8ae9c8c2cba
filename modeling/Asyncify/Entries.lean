import Asyncify.Key

/-! Entries of maps. -/
namespace Asyncify

/-- The entries of a map in order. No two keys are the same, and each has its value. -/
structure Entries (α : Type) where
  keys : Keys
  value : Fin keys.toList.length → α

namespace Entries

variable {α : Type} {k : Key} {v : α} {e : Key × α} {l : List (Key × α)}

/-- No key stands twice in a list of entries. -/
def Distinct (l : List (Key × α)) : Prop := l.Pairwise fun a b => a.1.same b.1 = false

/-- Keys, each with its value. -/
def row : (ks : List Key) → (Fin ks.length → α) → List (Key × α)
  | [], _ => []
  | k :: ks, value => (k, value ⟨0, Nat.zero_lt_succ _⟩) :: row ks fun i => value i.succ

theorem map_fst_row : ∀ (ks : List Key) (value : Fin ks.length → α), (row ks value).map (·.1) = ks
  | [], _ => rfl
  | k :: ks, _ => congrArg (k :: ·) (map_fst_row ks _)

def toList (es : Entries α) : List (Key × α) := row es.keys.toList es.value

theorem pairwise_keys : (l.map (·.1)).Pairwise (fun a b => a.same b = false) ↔ Distinct l :=
  List.pairwise_map

theorem distinct_toList (es : Entries α) : Distinct es.toList := by
  rw [← pairwise_keys, toList, map_fst_row]
  exact es.keys.distinct

/-- The entries of a list in which no key stands twice. -/
def ofDistinct (l : List (Key × α)) (h : Distinct l) : Entries α where
  keys := ⟨l.map (·.1), pairwise_keys.2 h⟩
  value i := (l.get (i.cast (List.length_map _))).2

@[simp] theorem toList_ofDistinct (h : Distinct l) : (ofDistinct l h).toList = l := by
  show row (l.map (·.1)) (fun i => (l.get (i.cast (List.length_map _))).2) = l
  clear h
  induction l with
  | nil => rfl
  | cons e l ih => exact congrArg (e :: ·) ih

def empty : Entries α := ofDistinct [] .nil

def get? (es : Entries α) (key : Key) : Option α :=
  (es.toList.find? fun e => e.1.same key).map (·.2)

/-- Sets a key in a list of entries: in its place if the list has it, at the end if not. -/
def putIn : List (Key × α) → Key → α → List (Key × α)
  | [], k, v => [(k, v)]
  | (j, w) :: l, k, v => if j.same k then (j, v) :: l else (j, w) :: putIn l k v

theorem key_of_mem_putIn (h : e ∈ putIn l k v) : e.1 = k ∨ ∃ f ∈ l, f.1 = e.1 := by
  induction l with
  | nil =>
    obtain rfl : e = (k, v) := by simpa [putIn] using h
    exact Or.inl rfl
  | cons f l ih =>
    obtain ⟨j, w⟩ := f
    rw [putIn] at h
    by_cases hj : j.same k
    · rw [if_pos hj] at h
      obtain rfl | h := List.mem_cons.1 h
      · exact Or.inr ⟨(j, w), List.mem_cons_self, rfl⟩
      · exact Or.inr ⟨e, List.mem_cons_of_mem _ h, rfl⟩
    · rw [if_neg hj] at h
      obtain rfl | h := List.mem_cons.1 h
      · exact Or.inr ⟨_, List.mem_cons_self, rfl⟩
      · obtain h | ⟨f, hf, he⟩ := ih h
        · exact Or.inl h
        · exact Or.inr ⟨f, List.mem_cons_of_mem _ hf, he⟩

theorem Distinct.putIn (h : Distinct l) (k : Key) (v : α) : Distinct (putIn l k v) := by
  induction l with
  | nil => exact List.pairwise_singleton _ _
  | cons f l ih =>
    obtain ⟨j, w⟩ := f
    obtain ⟨hj, hl⟩ := List.pairwise_cons.1 h
    rw [Entries.putIn]
    by_cases hjk : j.same k
    · rw [if_pos hjk]
      exact List.pairwise_cons.2 ⟨hj, hl⟩
    · rw [if_neg hjk]
      refine List.pairwise_cons.2 ⟨fun e he => ?_, ih hl⟩
      obtain hk | ⟨f, hf, hfe⟩ := key_of_mem_putIn he
      · rw [hk]
        simpa using hjk
      · rw [← hfe]
        exact hj f hf

def put (es : Entries α) (k : Key) (v : α) : Entries α :=
  ofDistinct (putIn es.toList k v) (es.distinct_toList.putIn k v)

@[simp] theorem toList_put (es : Entries α) (k : Key) (v : α) :
    (es.put k v).toList = putIn es.toList k v := toList_ofDistinct _

/-- Sets keys one after the other. -/
def putAll (es : Entries α) (more : List (Key × α)) : Entries α :=
  more.foldl (fun acc e => acc.put e.1 e.2) es

/-- The entries of a list. Of two with the same key, the later value holds. -/
def ofList (l : List (Key × α)) : Entries α := empty.putAll l

end Entries
end Asyncify
