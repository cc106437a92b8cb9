import Recovery.PartitionTargets

/-!
A second call of `applypatch` right after one that returned 0.
-/
namespace Recovery.Repeats
open Memory Program Program.Prog Storage Load FreeCache Option
open Imgpatch PatchStreams PatchHash Applypatch Recovery.Partition Holding
open Saving Rounds Plans FileTargets PartitionTargets StoredLibs

variable {L : Libs} {r : Request}

theorem sortPairs_sorted (pairs : List (Nat × Option Path)) : (sortPairs pairs).Pairwise fun a b => a.1 ≤ b.1 := by
  exact List.pairwise_insertionSort _ pairs

/-- The name of the partition lists the size and the hash of the target. -/
def Named (r : Request) : Prop := isPartition r.target = true ∧
  ∃ pairs, readPairs (pairCount r.target) ((tokens r.target).drop 2) = .ok pairs ∧
    (r.targetSize, some r.targetSha1Str) ∈ pairs

end Recovery.Repeats
