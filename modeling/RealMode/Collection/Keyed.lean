/-! Lists of values by key, in the order in which the keys arrived. -/

set_option autoImplicit false

namespace RealMode.Keyed

variable {κ β : Type} [DecidableEq κ]

/-- Changes the value of a key. A key that is new has had a fresh value. -/
def update (fresh : β) (key : κ) (change : β → β) : List (κ × β) → List (κ × β)
  | [] => [(key, change fresh)]
  | (known, value) :: rest =>
      if known = key then (known, change value) :: rest
      else (known, value) :: update fresh key change rest

def find? (key : κ) (entries : List (κ × β)) : Option β :=
  (entries.find? fun entry => entry.1 = key).map Prod.snd

/-- The value of a key, which is fresh as long as the key is not known. -/
def valueAt (fresh : β) (entries : List (κ × β)) (key : κ) : β := (find? key entries).getD fresh

theorem find?_update (fresh : β) (key other : κ) (change : β → β) (entries : List (κ × β)) :
    find? other (update fresh key change entries) =
      if key = other then some (change (valueAt fresh entries key)) else find? other entries := by
  induction entries with
  | nil => by_cases same : key = other <;> simp [update, find?, valueAt, same]
  | cons entry rest ih =>
      obtain ⟨known, value⟩ := entry
      unfold valueAt find? at ih ⊢
      rw [update]
      by_cases found : known = key
      · subst found
        by_cases same : known = other <;> simp [same]
      · rw [if_neg found, List.find?_cons, List.find?_cons]
        by_cases same : known = other
        · subst same
          simp [Ne.symm found]
        · simp [found, same, ih]

theorem valueAt_update (fresh : β) (key other : κ) (change : β → β) (entries : List (κ × β)) :
    valueAt fresh (update fresh key change entries) other =
      if key = other then change (valueAt fresh entries key) else valueAt fresh entries other := by
  rw [valueAt, find?_update]
  split <;> rfl

/-- Enters a key once, behind those that are known. -/
def enter (keys : List κ) (key : κ) : List κ := if key ∈ keys then keys else keys ++ [key]

theorem keys_update (fresh : β) (key : κ) (change : β → β) (entries : List (κ × β)) :
    (update fresh key change entries).map Prod.fst = enter (entries.map Prod.fst) key := by
  unfold enter
  induction entries with
  | nil => rfl
  | cons entry rest ih =>
      obtain ⟨known, value⟩ := entry
      rw [update]
      by_cases found : known = key
      · simp [found]
      · rw [if_neg found, List.map_cons, ih]
        by_cases listed : key ∈ rest.map Prod.fst <;> simp [listed, Ne.symm found]

theorem isSome_find?_iff {key : κ} {entries : List (κ × β)} :
    (find? key entries).isSome = true ↔ key ∈ entries.map Prod.fst := by
  simp [find?]

end RealMode.Keyed
