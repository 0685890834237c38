import Allora.Kobject

/-!
# `container.rs` — looking for a container with a label

`search` goes over the containers that know one another, from a first one on, and keeps three
vectors: the containers still to look at, those visited, and those found. A vector's last element
is its end: `push` and `pop` work there. The order of a container's `known_containers` is the one
`List::iter` gives, newest first.
-/

set_option autoImplicit false

namespace Allora

open Outcome

/-- `Vec::pop`. -/
def vecPop {α : Type} (v : List α) : Option (List α × α) :=
  v.getLast?.map fun a => (v.dropLast, a)

namespace Kernel

variable {Buckle : Type} [BEq Buckle]

/-- The test of `search`: not the container to avoid, and the label that is asked for. -/
def isWanted (lb : Labeled Buckle) (k : Kernel Buckle) (label : String) (avoid ct : Nat) :
    Outcome Bool := do
  if ct != avoid then
    let theirs ← unwrap (k.info ct).label
    let inner ← unwrap (k.inner theirs)
    let wanted ← unwrap (lb.parse label)
    pure (inner == wanted)
  else
    pure false

/-- The `while let` loop of `search`, with the vectors `visited` and `found` it ends with. -/
def searchLoop (lb : Labeled Buckle) (known : Nat → Option (List Nat)) (k : Kernel Buckle)
    (label : String) (avoid : Nat) :
    Nat → List Nat → List Nat → List Nat → Outcome (List Nat × List Nat)
  | 0, _, _, _ => timeout
  | fuel + 1, containers, visited, found =>
    match vecPop containers with
    | none => pure (visited, found)
    | some (containers, ct) =>
      if (visited.find? (· == ct)).isSome then
        searchLoop lb known k label avoid fuel containers visited found
      else do
        let visited := visited ++ [ct]
        let wanted ← k.isWanted lb label avoid ct
        let found := if wanted then found ++ [ct] else found
        let containers :=
          match known ct with
          | some cts => containers ++ cts
          | none => containers
        searchLoop lb known k label avoid fuel containers visited found

/-- `container::search`. The label is parsed with the memory of the current thread. -/
def search (lb : Labeled Buckle) (known : Nat → Option (List Nat)) (fuel : Nat) (k : Kernel Buckle)
    (ct : Nat) (label : String) (avoid : Nat) : Outcome (Option Nat) := do
  let _ ← unwrap k.current
  let (_, found) ← k.searchLoop lb known label avoid fuel [ct] [] []
  pure found.getLast?

end Kernel
end Allora
