import Mathlib
import Zapatos.Move.Vector

namespace Zapatos.Datastructures

open Move

structure OrderedMap.Entry (K V : Type) where
  key : K
  value : V
deriving DecidableEq, Repr

structure OrderedMap (K V : Type) where
  entries : List (OrderedMap.Entry K V)
deriving DecidableEq, Repr

namespace OrderedMap

def EKEY_ALREADY_EXISTS : ℕ := 1

def EKEY_NOT_FOUND : ℕ := 2

def EITER_OUT_OF_BOUNDS : ℕ := 3

def ENEW_KEY_NOT_IN_ORDER : ℕ := 4

inductive IteratorPtr where
  | End
  | Position (index : ℕ)
deriving DecidableEq, Repr

variable {K V : Type} [LinearOrder K]

-- The loop runs while l != r; called with end = len it keeps l ≤ r ≤ len, which the borrow of
-- entries[mid] needs.
def binary_search (key : K) (entries : List (Entry K V)) (l r : ℕ) : ℕ :=
  if h : l < r ∧ r ≤ entries.length then
    let mid := l + (r - l) / 2
    if compare entries[mid].key key = .lt then binary_search key entries (mid + 1) r
    else binary_search key entries l mid
  else l
termination_by r - l

def new : OrderedMap K V := ⟨[]⟩

def length (self : OrderedMap K V) : ℕ := self.entries.length

-- entries[index]?.map key = some key stands for index < len && entries[index].key == key.
def add (self : OrderedMap K V) (key : K) (value : V) : Except ℕ (OrderedMap K V) := do
  let len := self.entries.length
  let index := binary_search key self.entries 0 len
  if self.entries[index]?.map Entry.key = some key then
    throw (invalid_argument EKEY_ALREADY_EXISTS)
  let entries ← vector.insert self.entries index ⟨key, value⟩
  pure ⟨entries⟩

def upsert (self : OrderedMap K V) (key : K) (value : V) :
    Except ℕ (OrderedMap K V × Option V) := do
  let len := self.entries.length
  let index := binary_search key self.entries 0 len
  if self.entries[index]?.map Entry.key = some key then
    let (entries, old) ← vector.replace self.entries index ⟨key, value⟩
    pure (⟨entries⟩, some old.value)
  else
    let entries ← vector.insert self.entries index ⟨key, value⟩
    pure (⟨entries⟩, none)

def remove (self : OrderedMap K V) (key : K) : Except ℕ (OrderedMap K V × V) := do
  let len := self.entries.length
  let index := binary_search key self.entries 0 len
  unless index < len do throw (invalid_argument EKEY_NOT_FOUND)
  let (entries, old) ← vector.remove self.entries index
  unless key = old.key do throw (invalid_argument EKEY_NOT_FOUND)
  pure (⟨entries⟩, old.value)

def remove_or_none (self : OrderedMap K V) (key : K) :
    Except ℕ (OrderedMap K V × Option V) := do
  let len := self.entries.length
  let index := binary_search key self.entries 0 len
  if self.entries[index]?.map Entry.key = some key then
    let (entries, old) ← vector.remove self.entries index
    pure (⟨entries⟩, some old.value)
  else pure (self, none)

def replace_key_inplace (self : OrderedMap K V) (old_key new_key : K) :
    Except ℕ (OrderedMap K V) := do
  let len := self.entries.length
  let index := binary_search old_key self.entries 0 len
  if h : index < len then
    unless old_key = self.entries[index].key do throw (invalid_argument EKEY_NOT_FOUND)
    if 0 < index then
      unless compare self.entries[index - 1].key new_key = .lt do
        throw (invalid_argument ENEW_KEY_NOT_IN_ORDER)
    if h' : index + 1 < len then
      unless compare new_key self.entries[index + 1].key = .lt do
        throw (invalid_argument ENEW_KEY_NOT_IN_ORDER)
    pure ⟨self.entries.set index { self.entries[index] with key := new_key }⟩
  else throw (invalid_argument EKEY_NOT_FOUND)

def trim (self : OrderedMap K V) (at' : ℕ) : Except ℕ (OrderedMap K V × OrderedMap K V) := do
  let (entries, rest) ← vector.trim self.entries at'
  pure (⟨entries⟩, ⟨rest⟩)

-- The loop of append_impl. cur_i and other_i are the last indices of entries and other_entries;
-- it returns entries, reverse_result and overwritten at the break.
def append_impl_loop (entries other_entries reverse_result overwritten : List (Entry K V)) :
    Except ℕ (List (Entry K V) × List (Entry K V) × List (Entry K V)) :=
  match hc : entries.getLast?, ho : other_entries.getLast? with
  | some cur, some other =>
    let ord := compare cur.key other.key
    if ord = .gt then
      if entries.length = 1 then
        .ok (entries.dropLast ++ other_entries, reverse_result ++ [cur], overwritten)
      else append_impl_loop entries.dropLast other_entries (reverse_result ++ [cur]) overwritten
    else if ord = .eq ∧ entries.length = 1 then
      .ok (entries.dropLast ++ other_entries, reverse_result, overwritten ++ [cur])
    else
      let entries' := if ord = .eq then entries.dropLast else entries
      let overwritten' := if ord = .eq then overwritten ++ [cur] else overwritten
      if other_entries.length = 1 then .ok (entries', reverse_result ++ [other], overwritten')
      else
        append_impl_loop entries' other_entries.dropLast (reverse_result ++ [other]) overwritten'
  | _, _ => .error vector.EINDEX_OUT_OF_BOUNDS
termination_by entries.length + other_entries.length
decreasing_by
  all_goals
    have h₁ : entries ≠ [] := List.getLast?_isSome.mp (by rw [hc]; rfl)
    have h₂ : other_entries ≠ [] := List.getLast?_isSome.mp (by rw [ho]; rfl)
    have := List.length_pos_of_ne_nil h₁
    have := List.length_pos_of_ne_nil h₂
  · simp only [List.length_dropLast]
    omega
  · split <;> simp only [List.length_dropLast] <;> omega

def append_impl (self other : OrderedMap K V) : Except ℕ (OrderedMap K V × List (Entry K V)) :=
  if other.entries.isEmpty then .ok (self, [])
  else if self.entries.isEmpty then .ok (⟨self.entries ++ other.entries⟩, [])
  else
    match self.entries.getLast?, other.entries.head? with
    | some last, some first =>
      -- all of other above all of self: move them over
      if compare last.key first.key = .lt then .ok (⟨self.entries ++ other.entries⟩, [])
      else do
        let (entries, reverse_result, overwritten) ←
          append_impl_loop self.entries other.entries [] []
        pure (⟨vector.reverse_append entries reverse_result⟩, overwritten)
    | _, _ => .error vector.EINDEX_OUT_OF_BOUNDS

def append (self other : OrderedMap K V) : Except ℕ (OrderedMap K V) := do
  let (self, _) ← self.append_impl other
  pure self

def append_disjoint (self other : OrderedMap K V) : Except ℕ (OrderedMap K V) := do
  let (self, overwritten) ← self.append_impl other
  unless overwritten.length = 0 do throw (invalid_argument EKEY_ALREADY_EXISTS)
  pure self

def internal_lower_bound (self : OrderedMap K V) (key : K) : IteratorPtr :=
  let len := self.entries.length
  let index := binary_search key self.entries 0 len
  if index = len then .End else .Position index

def iter_is_end (iter : IteratorPtr) : Bool := iter == .End

def internal_find (self : OrderedMap K V) (key : K) : IteratorPtr :=
  match self.internal_lower_bound key with
  | .End => .End
  | .Position index =>
    if self.entries[index]?.map Entry.key = some key then .Position index else .End

def contains (self : OrderedMap K V) (key : K) : Bool := !iter_is_end (self.internal_find key)

def get (self : OrderedMap K V) (key : K) : Option V :=
  match self.internal_find key with
  | .End => none
  | .Position index => self.entries[index]?.map Entry.value

-- Adds before the position; the neighbours must stay strictly ordered around the new key.
def IteratorPtr.iter_add (self : IteratorPtr) (map : OrderedMap K V) (key : K) (value : V) :
    Except ℕ (OrderedMap K V) := do
  let len := map.entries.length
  let insert_index := match self with
    | .End => len
    | .Position index => index
  if 0 < insert_index then
    match map.entries[insert_index - 1]? with
    | some prev =>
      unless compare prev.key key = .lt do throw (invalid_argument ENEW_KEY_NOT_IN_ORDER)
    | none => throw vector.EINDEX_OUT_OF_BOUNDS
  if h : insert_index < len then
    unless compare key map.entries[insert_index].key = .lt do
      throw (invalid_argument ENEW_KEY_NOT_IN_ORDER)
  let entries ← vector.insert map.entries insert_index ⟨key, value⟩
  pure ⟨entries⟩

end OrderedMap

end Zapatos.Datastructures
