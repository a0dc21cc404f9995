/-!
# FreeNames.Sort

Sorting by insertion.  It is stable: what an order does not tell apart stays in
place.
-/

namespace FreeNames.Sort

/-- Put an item in front of the first one that it does not come after. -/
def insert {α : Type} (le : α → α → Bool) (a : α) : List α → List α
  | [] => [a]
  | b :: bs => if le a b then a :: b :: bs else b :: insert le a bs

/-- Sort a list. -/
def sort {α : Type} (le : α → α → Bool) : List α → List α
  | [] => []
  | a :: as => insert le a (sort le as)

end FreeNames.Sort
