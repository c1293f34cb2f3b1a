/-!
# Keyed lists

Records, parameter bags, registries and counters are lists of pairs in increasing order of their
keys, one pair a key. `insert` keeps this order and replaces what a key had before.
-/

namespace QueryCompiler.Keyed

variable {α : Type}

/-- Gives `k` the value `v`. -/
def insert (k : String) (v : α) : List (String × α) → List (String × α)
  | [] => [(k, v)]
  | (k', v') :: rest =>
    if k < k' then (k, v) :: (k', v') :: rest
    else if k = k' then (k, v) :: rest
    else (k', v') :: insert k v rest

/-- The value of a key. -/
def get? (k : String) : List (String × α) → Option α
  | [] => none
  | (k', v) :: rest => if k = k' then some v else get? k rest

/-- The pairs in order of their keys; of several with one key, the last. -/
def ofList (pairs : List (String × α)) : List (String × α) :=
  pairs.foldl (fun acc p => insert p.1 p.2 acc) []

/-- Changes the value of `k` by `f`, from `d` if it has none. -/
def alter (k : String) (d : α) (f : α → α) (pairs : List (String × α)) : List (String × α) :=
  insert k (f ((get? k pairs).getD d)) pairs

/-- The distinct texts of a list in increasing order. -/
def setOf (keys : List String) : List String :=
  (ofList (keys.map fun k => (k, ()))).map (·.1)

/-- Puts `a` before the first element whose key is not smaller. -/
def insertBy (key : α → String) (a : α) : List α → List α
  | [] => [a]
  | b :: bs => if key b < key a then b :: insertBy key a bs else a :: b :: bs

/-- The elements in the order of their keys; those of one key keep their order. -/
def sortBy (key : α → String) (as : List α) : List α :=
  as.foldr (insertBy key) []

theorem get?_insert_self (k : String) (v : α) (l : List (String × α)) :
    get? k (insert k v l) = some v := by
  induction l with
  | nil => simp [insert, get?]
  | cons p l ih =>
    simp only [insert]
    split
    · simp [get?]
    · split
      · simp [get?]
      · simp [get?, *]

theorem get?_insert_of_ne {k k' : String} (v : α) (l : List (String × α)) (h : k' ≠ k) :
    get? k' (insert k v l) = get? k' l := by
  induction l with
  | nil => simp [insert, get?, h]
  | cons p l ih =>
    simp only [insert]
    split
    · simp [get?, h]
    · split
      next e => subst e; simp [get?, h]
      next => simp [get?, ih]

end QueryCompiler.Keyed
