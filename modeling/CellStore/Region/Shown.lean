import CellStore.Mutation
import CellStore.Tally

/-! What a region shows, said of its mutations without any file. -/

namespace CellStore

/-- A mutation and the rank of its file; newer files have lower ranks. -/
structure Ranked where
  rank : Nat
  mutation : Mutation

namespace Ranked

def order (a b : Ranked) : Ordering :=
  (a.mutation.order b.mutation).then (compare a.rank b.rank)

def ofFiles (files : List (List Mutation)) : List Ranked :=
  files.zipIdx.flatMap fun (mutations, rank) => mutations.map fun m => ⟨rank, m⟩

def sorted (files : List (List Mutation)) : List Mutation :=
  ((ofFiles files).mergeSort fun a b => (a.order b).isLE).map (·.mutation)

end Ranked

namespace Mutation

def hides (tombstone put : Mutation) : Bool :=
  tombstone.row = put.row && match tombstone.kind with
    | .deleteFamily => put.timestamp ≤ tombstone.timestamp
    | .deleteColumn =>
      tombstone.qualifier = put.qualifier && put.timestamp ≤ tombstone.timestamp
    | .delete => tombstone.qualifier = put.qualifier && tombstone.timestamp = put.timestamp
    | .put => false

/-- The first `most` puts of each column, or all of them when `most` is 0. -/
def newest (most : Nat) : (versions : Tally (Bytes × Bytes)) → List Mutation → List Mutation
  | _, [] => []
  | versions, m :: ms =>
    let column := (m.row, m.qualifier)
    if most = 0 then m :: newest most versions ms
    else if most ≤ versions.count column then newest most versions ms
    else m :: newest most (versions.add column) ms

/-- The visible puts of a region, whose files are given newest first: those that no tombstone in
any file hides, and of each column the first ones. -/
def visible (files : List (List Mutation)) (maxVersions : Nat) : List Mutation :=
  let sorted := Ranked.sorted files
  let tombstones := sorted.filter (·.kind.isTombstone)
  newest maxVersions []
    (sorted.filter fun m => !m.kind.isTombstone && !tombstones.any (·.hides m))

end Mutation

end CellStore
