/-
`ExpirationMap.cpp`: the edges that left the window, and how blocks are cut from them.

Each vertex has the list of its edges that are in no block yet, and a place in a
queue ordered by score.  A block takes a prefix of some of the lists: the plain
layouts take edge after edge from the top of the queue until the block is full and
give the last one back when it is too much; the smart layout grows a few candidates
edge by edge and keeps the one with the best locality.

What the source leaves to the library is an `Oracle`: the numbers `rand()` returns
and the order in which hash maps are enumerated.  Each call gets an oracle of its
own, and within a call every draw and every enumeration is asked for separately.
Block statistics are left out; they are read by nobody here.
-/
import RailwayDB.Core.Block
import RailwayDB.Core.Candidate

namespace RailwayDB

/-- The choices of the library during one call. -/
structure Oracle (S : Type) where
  /-- `rand()`, by the place of the draw, the vertex scored and its position. -/
  rand : Nat → VertexId → Nat → S
  /-- The enumeration order of a hash map keyed by vertices, by the place of the loop. -/
  order : Nat → Nat → List VertexId → List VertexId
  order_perm : ∀ place turn l, (order place turn l).Perm l

structure ExpirationMap (T S D : Type) [LinearOrder S] where
  conf : Conf
  size : Nat
  scoreQueue : PriorityQueue S VertexId
  neigLists : NeighborListMap T D

namespace ExpirationMap

variable {T S D : Type} [LinearOrder T] [LinearOrder S] [Score S] [TimeScore T S]

def maxSize (m : ExpirationMap T S D) : Nat := 2 * m.conf.expirationMapSize

/-- `ExpirationMap(conf, histg)`. -/
def new (conf : Conf) : ExpirationMap T S D :=
  { conf := conf, size := 0, scoreQueue := .new PriorityQueue.unbounded, neigLists := ∅ }

/-! ### Scores -/

/-- The classes derived from `HeadVertexScorer`. -/
inductive HeadVertexScorer where
  | min
  | max
  | old
  | new
  | rand
  deriving DecidableEq, Repr

def getHeadVertexScorer (conf : Conf) : HeadVertexScorer :=
  match conf.layoutMode with
  | .max => .max
  | .old => .old
  | .random => .rand
  | .smart =>
      match conf.initialCandidateSelectionPolicy with
      | .max => .max
      | .min => .min
      | .old => .old
      | .new => .new
      | .random => .rand

/-- `neigLists_[v]`: an absent list is an empty one. -/
def listOf (m : ExpirationMap T S D) (v : VertexId) : NeighborList T D := ⟨v, m.neigLists.edges v⟩

/-- `hvScorer_->score(v, i)`. -/
def score (ω : Oracle S) (m : ExpirationMap T S D) (place : Nat) (v : VertexId) (i : Nat) :
    Except Fault S :=
  match getHeadVertexScorer m.conf with
  | .min => .ok (Score.ofNat ((m.listOf v).edges.length - i))
  | .max => .ok (Score.neg (Score.ofNat ((m.listOf v).edges.length - i)))
  | .old => ((m.listOf v).getNthOldestEdge i).map fun e => TimeScore.ofTime e.time
  | .new => ((m.listOf v).getNthOldestEdge i).map fun e => Score.neg (TimeScore.ofTime e.time)
  | .rand => .ok (ω.rand place v i)

/-- `scoreQueue_.updateItem(hvScorer_->score(v, i), v)`. -/
def rescore (ω : Oracle S) (m : ExpirationMap T S D) (place : Nat) (v : VertexId) (i : Nat) :
    Except Fault (ExpirationMap T S D) :=
  (m.score ω place v i).map fun s => { m with scoreQueue := m.scoreQueue.updateItem s v }

/-! ### Taking edges out -/

/-- The loop of `removeEdges` over one list: drop edges up to and including `nedge`. -/
def removeUpTo (nedge : NLEdge T D) :
    List (NLEdge T D) → Except Fault (List (NLEdge T D) × Nat)
  | [] => .error (.undefined .outOfRange)
  | redge :: rest =>
      if redge.toVertex = nedge.toVertex ∧ redge.time = nedge.time then .ok (rest, 1)
      else (removeUpTo nedge rest).map fun r => (r.1, r.2 + 1)

/-- The body of the loop of `removeEdges`. -/
def removeList (ω : Oracle S) (block : Block T D) (m : ExpirationMap T S D) (v : VertexId) :
    Except Fault (ExpirationMap T S D) := do
  let nlist ← Candidate.findList block.neigs v
  let source := nlist.headVertex
  let nedge ← nlist.getNewestEdge
  let (rest, removed) ← removeUpTo nedge (m.listOf source).edges
  let m := { m with size := m.size - removed }
  if rest.isEmpty then
    return { m with
      neigLists := m.neigLists.erase source
      scoreQueue := m.scoreQueue.removeItem source }
  else
    rescore ω { m with neigLists := m.neigLists.insert source ⟨source, rest⟩ } 3 source 0

def removeEdges (ω : Oracle S) (m : ExpirationMap T S D) (block : Block T D) :
    Except Fault (ExpirationMap T S D) :=
  (ω.order 0 0 block.neigs.keys).foldlM (removeList ω block) m

variable [SerializedSize D]

/-! ### The plain layouts -/

/-- What the filling loop of `getBlock` carries. -/
structure Filling (T S D : Type) [LinearOrder S] where
  map : ExpirationMap T S D
  block : Block T D
  nTaken : AList fun _ : VertexId => Nat
  headVertex : VertexId

/-- The body of the filling loop. -/
def fillStep (ω : Oracle S) (f : Filling T S D) : Except Fault (Filling T S D) := do
  let item ← f.map.scoreQueue.getTopItem
  let headVertex := item.2
  let i := (f.nTaken.lookup headVertex).getD 0
  let nTaken := f.nTaken.insert headVertex (i + 1)
  let nlist := f.map.listOf headVertex
  let edge ← nlist.getNthOldestEdge i
  let block ← f.block.addEdge headVertex edge.toVertex edge.time edge.data
  if i + 1 = nlist.edges.length then
    let map := { f.map with scoreQueue := f.map.scoreQueue.removeItem headVertex }
    return ⟨map, block, nTaken, headVertex⟩
  else
    let map ← f.map.rescore ω 1 headVertex (i + 1)
    return ⟨map, block, nTaken, headVertex⟩

/-- `while (!scoreQueue_.empty() && block.getSerializedSize()<maxBlockSize)`.  Every turn takes
one edge out of the lists, so there are no more turns than edges. -/
def fillLoop (ω : Oracle S) : Nat → Filling T S D → Except Fault (Filling T S D)
  | 0, _ => .error .outOfFuel
  | fuel + 1, f =>
      if ¬ f.map.scoreQueue.isEmpty ∧ f.block.getSerializedSize < f.map.conf.blockSize then
        (fillStep ω f).bind (fillLoop ω fuel)
      else .ok f

/-- `if (block.getSerializedSize()>maxBlockSize)`: the last edge is taken back. -/
def takeBack (ω : Oracle S) (maxBlockSize : Nat) (f : Filling T S D) :
    Except Fault (Block T D × ExpirationMap T S D) :=
  if maxBlockSize < f.block.getSerializedSize then do
    let block ← f.block.removeNewestEdge f.headVertex
    let map ← f.map.rescore ω 2 f.headVertex (block.neigs.edges f.headVertex).length
    return (block, map)
  else .ok (f.block, f.map)

/-- The candidate built for the statistics: its assertions are checked. -/
def candidateOf (ω : Oracle S) (m : ExpirationMap T S D) (block : Block T D) :
    Except Fault (Candidate T) :=
  (ω.order 1 0 block.neigs.keys).foldlM
    (fun c v => c.setEdgeCount m.neigLists v (block.neigs.edges v).length) Candidate.new

def getBlock (ω : Oracle S) (m : ExpirationMap T S D) :
    Except Fault (Block T D × ExpirationMap T S D) := do
  let f ← fillLoop ω (edgeTotal m.neigLists + 1) ⟨m, .new, ∅, 0⟩
  let (block, map) ← takeBack ω m.conf.blockSize f
  let _ ← candidateOf ω map block
  return (block, map)

/-! ### The smart layout -/

/-- The best extension found so far. -/
structure Best (S : Type) where
  headVertex : VertexId
  edgeCount : Nat
  score : S

/-- `setEdgeCount` behind its assertion that the list is long enough. -/
def trySetEdgeCount (m : ExpirationMap T S D) (c : Candidate T) (v : VertexId) (n : Nat) :
    Except Fault (Candidate T) :=
  if n ≤ (m.listOf v).edges.length then c.setEdgeCount m.neigLists v n
  else .error (.assertFailed .candidateWithinList)

/-- `!found || score>bestScore`. -/
def better (best : Option (Best S)) (new : Best S) : Option (Best S) :=
  match best with
  | none => some new
  | some old => if old.score < new.score then some new else some old

/-- `(locality-initLocality) / (size-orgSize)`. -/
def gain (m : ExpirationMap T S D) (initLocality : S) (orgSize : Nat) (c : Candidate T) : S :=
  Score.div (Score.sub (c.getLocality m.conf.localityMetric) initLocality)
    (Score.ofNat (c.getSerializedSize - orgSize))

/-- The inner loop over longer and longer prefixes of one list, up to the newest time. -/
def tryPrefixes (m : ExpirationMap T S D) (initLocality : S) (orgSize : Nat) (orgMaxTime : T)
    (headVertex : VertexId) (nlist : NeighborList T D) :
    List Nat → Candidate T → Option (Best S) → Except Fault (Candidate T × Option (Best S))
  | [], c, best => .ok (c, best)
  | edgeCount :: more, c, best => do
      let edge ← nlist.getNthOldestEdge (edgeCount - 1)
      if orgMaxTime < edge.time then return (c, best)
      else
        let c ← m.trySetEdgeCount c headVertex edgeCount
        if m.conf.blockSize < c.getSerializedSize then return (c, best)
        else
          tryPrefixes m initLocality orgSize orgMaxTime headVertex nlist more c
            (better best ⟨headVertex, edgeCount, m.gain initLocality orgSize c⟩)

/-- The first loop: alternatives among the present vertices that add no newer time. -/
def tryPresent (m : ExpirationMap T S D) (initLocality : S) (orgSize : Nat) (orgMaxTime : T)
    (r : Candidate T × Option (Best S)) (headVertex : VertexId) :
    Except Fault (Candidate T × Option (Best S)) :=
  match m.neigLists.lookup headVertex with
  | none => .ok r
  | some nlist => do
      let orgEdgeCount := r.1.getEdgeCount headVertex
      let (c, best) ← m.tryPrefixes initLocality orgSize orgMaxTime headVertex nlist
        (List.range' (orgEdgeCount + 1) (nlist.edges.length - orgEdgeCount)) r.1 r.2
      let c ← m.trySetEdgeCount c headVertex orgEdgeCount
      return (c, best)

/-- The second loop: one more edge from a present vertex. -/
def tryOneStep (m : ExpirationMap T S D) (initLocality : S) (orgSize : Nat)
    (r : Candidate T × Option (Best S)) (headVertex : VertexId) :
    Except Fault (Candidate T × Option (Best S)) :=
  match m.neigLists.lookup headVertex with
  | none => .ok r
  | some nlist => do
      let orgEdgeCount := r.1.getEdgeCount headVertex
      if orgEdgeCount = nlist.edges.length then return r
      else
        let c ← m.trySetEdgeCount r.1 headVertex (orgEdgeCount + 1)
        let best :=
          if c.getSerializedSize ≤ m.conf.blockSize then
            better r.2 ⟨headVertex, orgEdgeCount + 1, m.gain initLocality orgSize c⟩
          else r.2
        let c ← m.trySetEdgeCount c headVertex orgEdgeCount
        return (c, best)

/-- The third loop: the first edge of the queue that can be added. -/
def tryQueue (m : ExpirationMap T S D) (dummy : S) :
    List VertexId → Candidate T → Except Fault (Candidate T × Option (Best S))
  | [], c => .ok (c, none)
  | headVertex :: more, c => do
      let orgEdgeCount := c.getEdgeCount headVertex
      if orgEdgeCount = (m.listOf headVertex).edges.length then tryQueue m dummy more c
      else
        let c ← m.trySetEdgeCount c headVertex (orgEdgeCount + 1)
        let size := c.getSerializedSize
        let c ← m.trySetEdgeCount c headVertex orgEdgeCount
        if size ≤ m.conf.blockSize then
          return (c, some ⟨headVertex, orgEdgeCount + 1, dummy⟩)
        else if orgEdgeCount ≠ 0 then return (c, none)
        else if m.conf.blockSize < size - 12 then return (c, none)
        else tryQueue m dummy more c

/-- The three loops of `extendCandidate`, each run when the one before found nothing. -/
def findExtension (ω : Oracle S) (place turn : Nat) (m : ExpirationMap T S D) (c : Candidate T) :
    Except Fault (Candidate T × Option (Best S)) := do
  let initLocality := c.getLocality m.conf.localityMetric
  let orgSize := c.getSerializedSize
  let orgMaxTime ← c.getNewestTime
  let vertices := ω.order place turn c.presentVertices.keys
  let r ← vertices.foldlM (m.tryPresent initLocality orgSize orgMaxTime) (c, none)
  if r.2.isSome then return r
  else
    let r ← vertices.foldlM (m.tryOneStep initLocality orgSize) r
    if r.2.isSome then return r
    else m.tryQueue initLocality (m.scoreQueue.getItems.map Prod.snd) r.1

/-- `extendCandidate`: the candidate, and whether it cannot be extended any more. -/
def extendCandidate (ω : Oracle S) (place turn : Nat) (m : ExpirationMap T S D) (c : Candidate T) :
    Except Fault (Candidate T × Bool) := do
  let (c, best) ← m.findExtension ω place turn c
  match best with
  | none => return (c, true)
  | some b =>
      let c ← m.trySetEdgeCount c b.headVertex b.edgeCount
      return (c, c.getSerializedSize = m.conf.blockSize)

/-- One pass over the candidates: those still growing, and those that are done. -/
def growPass (ω : Oracle S) (place : Nat) (m : ExpirationMap T S D) :
    Nat → List (Candidate T) → Except Fault (List (Candidate T) × List (Candidate T))
  | _, [] => .ok ([], [])
  | turn, c :: cs => do
      let oldSize := c.getSerializedSize
      let (c, done) ← m.extendCandidate ω place turn c
      if ¬ done ∧ ¬ oldSize < c.getSerializedSize then throw (.assertFailed .candidateGrew)
      let (growing, finalized) ← growPass ω place m (turn + 1) cs
      if done then return (growing, c :: finalized) else return (c :: growing, finalized)

/-- `while (!candidates.empty())`.  A candidate that is not done has grown and still fits, so a
block size of passes is enough. -/
def growLoop (ω : Oracle S) (m : ExpirationMap T S D) :
    Nat → List (Candidate T) → List (Candidate T) → Except Fault (List (Candidate T))
  | _, [], finalized => .ok finalized
  | 0, _ :: _, _ => .error .outOfFuel
  | fuel + 1, c :: cs, finalized => do
      let (growing, more) ← m.growPass ω (fuel + 4) 0 (c :: cs)
      growLoop ω m fuel growing (finalized ++ more)

/-- The candidate with the best locality, the first of several. -/
def bestCandidate (m : ExpirationMap T S D) :
    List (Candidate T) → Candidate T → S → Except Fault (Candidate T)
  | [], best, _ => .ok best
  | c :: cs, best, bValue =>
      let ls := c.getLocality m.conf.localityMetric
      if ls < Score.ofNat 0 then .error (.assertFailed .candidateLocality)
      else if bValue < ls then bestCandidate m cs c ls
      else bestCandidate m cs best bValue

/-- The inner loop of "form block": the first `count` edges of one list. -/
def copyEdges (block : Block T D) (headVertex : VertexId) (nlist : NeighborList T D) (count : Nat) :
    Except Fault (Block T D) :=
  (List.range count).foldlM (fun block i => do
    let edge ← nlist.getNthOldestEdge i
    block.addEdge headVertex edge.toVertex edge.time edge.data) block

/-- The lists of a candidate, copied to a block edge by edge. -/
def formBlock (ω : Oracle S) (m : ExpirationMap T S D) (c : Candidate T) :
    Except Fault (Block T D) :=
  (ω.order 2 0 c.numEdges.keys).foldlM (fun block v => do
    let nlist ← Candidate.findList m.neigLists v
    copyEdges block v nlist (c.getEdgeCount v)) Block.new

/-- The candidates start with the oldest edge of the lists at the top of the queue. -/
def seedCandidates (ω : Oracle S) (m : ExpirationMap T S D) : Except Fault (List (Candidate T)) :=
  let k := min m.neigLists.keys.length m.conf.initialCandidateCount
  let heads := (m.scoreQueue.getItems.map Prod.snd).take k
  (ω.order 3 0 heads).mapM fun v =>
    m.trySetEdgeCount Candidate.new v (min (m.listOf v).edges.length m.conf.seedEdgeCount)

def getBlockSmart (ω : Oracle S) (m : ExpirationMap T S D) : Except Fault (Block T D) := do
  let candidates ← m.seedCandidates ω
  let finalized ← m.growLoop ω (m.conf.blockSize + 1) candidates []
  match finalized with
  | [] => throw (.undefined .outOfRange)
  | c :: _ =>
      let c ← m.bestCandidate finalized c (Score.neg (Score.ofNat 1))
      m.formBlock ω c

/-! ### Writing a block -/

/-- `switch(conf_.layoutMode())`. -/
def cutBlock (ω : Oracle S) (m : ExpirationMap T S D) :
    Except Fault (Block T D × ExpirationMap T S D) :=
  match m.conf.layoutMode with
  | .smart => (m.getBlockSmart ω).map fun block => (block, m)
  | _ => m.getBlock ω

/-- `writeBlock`: the block handed to `HistoricalGraph::addBlock`, and the map without it. -/
def writeBlock (ω : Oracle S) (m : ExpirationMap T S D) :
    Except Fault (Block T D × ExpirationMap T S D) := do
  let (block, m) ← m.cutBlock ω
  let m ← m.removeEdges ω block
  if m.neigLists.keys.length ≠ m.scoreQueue.getSize then
    throw (.assertFailed .writeBlockQueueSize)
  return (block, m)

/-- One half of `addEdge`: the edge goes behind the list of `v`, and `v` is scored again. -/
def push (ω : Oracle S) (place : Nat) (m : ExpirationMap T S D) (v : VertexId) (edge : NLEdge T D) :
    Except Fault (ExpirationMap T S D) :=
  rescore ω { m with neigLists := NeighborListMap.addEdge m.neigLists v edge } place v 0

/-- `addEdge`, and the block it wrote when the map was full. -/
def addEdge (ω : Oracle S) (m : ExpirationMap T S D) (edge : UEdge T) (data : SharedPtr D) :
    Except Fault (Option (Block T D) × ExpirationMap T S D) := do
  let m ← m.push ω 4 edge.firstVertex ⟨edge.secondVertex, edge.time, data⟩
  let m ← m.push ω 5 edge.secondVertex ⟨edge.firstVertex, edge.time, data⟩
  let m := { m with size := m.size + 2 }
  if m.maxSize < m.size then
    (m.writeBlock ω).map fun r => (some r.1, r.2)
  else return (none, m)

/-- `while(size_>0) writeBlock()`, for at most so many turns: the blocks in the order they were
written, and the map after them. -/
def flushTurns (ω : Nat → Oracle S) (m : ExpirationMap T S D) :
    Nat → Except Fault (List (Block T D) × ExpirationMap T S D)
  | 0 => .ok ([], m)
  | turns + 1 =>
      if m.size = 0 then .ok ([], m)
      else do
        let (block, m) ← m.writeBlock (ω turns)
        let (blocks, m) ← flushTurns ω m turns
        return (block :: blocks, m)

/-- `flush`: the loop ends when the map is empty. -/
def flush (ω : Nat → Oracle S) (m : ExpirationMap T S D) (fuel : Nat) :
    Except Fault (List (Block T D) × ExpirationMap T S D) := do
  let r ← m.flushTurns ω fuel
  if r.2.size = 0 then return r else throw .outOfFuel

end ExpirationMap

end RailwayDB
