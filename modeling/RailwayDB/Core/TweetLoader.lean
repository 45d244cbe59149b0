/-
`ExpSetupHelper.cpp`, the loader: a directory of tweet files becomes vertices and edges.

A tweet has one target for its sender's negative and one for every user mentioned in
it, and one edge to every target but the sender itself.  Tweets are timed by the second;
`scanTweets` tells the tweets of a second apart by the number of targets before them
and `populateGraphFromTweets` the edges of a tweet by the number of edges before them.

A line is here what `parseTweet` makes of it, with the fields that decide the times;
those that only become edge data are left out.  Times are milliseconds: numbers of 64
bits, and doubles where they are compared, which hold them exactly up to 2^53.
-/
import RailwayDB.Core.Schema
import RailwayDB.Core.Types

namespace RailwayDB

/-- A line with its fields.  The time is in seconds of the day. -/
structure Tweet where
  time : Nat
  userId : BitVec 64
  mentionedUsers : List (BitVec 64)

/-- A file for one day; `none` is a line that is no tweet. -/
structure TweetFile where
  dayTime : Nat
  lines : List (Option Tweet)

namespace ExpSetupHelper

/-- `from` and `tos`.  The least number has no negative. -/
def parseTweet (tweet : Tweet) : Except Fault (BitVec 64 × List (BitVec 64)) :=
  if tweet.userId = BitVec.intMin 64 then .error (.undefined .intOverflow)
  else .ok (tweet.userId, -tweet.userId :: tweet.mentionedUsers)

def getTweetTimestamp (time dayStart : Nat) : Nat := (dayStart + time) * 1000

/-! ### Scanning -/

/-- The variables of `scanTweets`; `state` is what the visitor captures. -/
structure Scan (σ : Type) where
  repeat_ : Nat
  pts : Int
  tsStart : Nat
  tsEnd : Nat
  state : σ

section Scan

variable {σ : Type}

/-- `visitor(time, from, tos)`. -/
abbrev Visitor (σ : Type) : Type :=
  σ → Nat → BitVec 64 → List (BitVec 64) → Except Fault σ

/-- The body of the loop over the lines of a file. -/
def scanLine (visitor : Visitor σ) (dayTime : Nat) (scan : Scan σ) :
    Option Tweet → Except Fault (Scan σ)
  | none => .ok scan
  | some tweet => do
      let (from_, tos) ← parseTweet tweet
      let ts := getTweetTimestamp tweet.time dayTime
      let repeat_ := if (ts : Int) ≠ scan.pts then 0 else scan.repeat_
      let state ← visitor scan.state (ts + repeat_) from_ tos
      .ok {
        repeat_ := repeat_ + tos.length
        pts := ts
        tsStart := if ts ≤ scan.tsStart then ts else scan.tsStart
        tsEnd := if ts ≥ scan.tsEnd then ts else scan.tsEnd
        state := state }

def scanFile (visitor : Visitor σ) (scan : Scan σ) (file : TweetFile) : Except Fault (Scan σ) :=
  file.lines.foldlM (scanLine visitor file.dayTime) scan

/-- The files in order of their names. -/
def scanTweets (visitor : Visitor σ) (files : List TweetFile) (state : σ) :
    Except Fault (Scan σ) :=
  files.foldlM (scanFile visitor) ⟨0, -1, 2 ^ 64 - 1, 0, state⟩

end Scan

/-! ### Vertices and edges -/

/-- The visitor of the first scan. -/
def collectVertices : Visitor (List (BitVec 64)) :=
  fun vertices _ from_ tos => .ok ((from_ :: tos).foldl (fun vs v => vs.insert v) vertices)

/-- What `addEdge` is called with. -/
structure TweetEdge where
  v : VertexId
  u : VertexId
  time : Nat
  dir : Text

/-- The variables of the second scan, and the calls of `addEdge` so far. -/
structure Population where
  i : Nat
  lastTimestamp : Nat
  edges : List TweetEdge

/-- `std::numeric_limits<int>::max()`. -/
def maxInt : Nat := 2 ^ 31 - 1

/-- The body of the loop over the targets of a tweet. -/
def addTarget (timestamp : Nat) (from_ : BitVec 64) (p : Population) (to_ : BitVec 64) :
    Except Fault Population :=
  if from_ ≠ to_ then
    let dir : Text := if from_.toInt > to_.toInt then [108] else [115]
    let edges := p.edges ++ [⟨from_.toFin, to_.toFin, timestamp + p.i, dir⟩]
    if p.i = maxInt then .error (.undefined .intOverflow)
    else .ok { p with i := p.i + 1, edges := edges }
  else .ok p

/-- The visitor of the second scan. -/
def addTweet : Visitor Population :=
  fun p timestamp from_ tos =>
    tos.foldlM (addTarget timestamp from_)
      (if timestamp ≠ p.lastTimestamp then { p with i := 0, lastTimestamp := timestamp } else p)

/-- The vertices created and the edges added, in order, with `tsStart` and `tsEnd`. -/
structure Loaded where
  vertices : List (BitVec 64)
  edges : List TweetEdge
  tsStart : Nat
  tsEnd : Nat

def populateGraphFromTweets (files : List TweetFile) : Except Fault Loaded := do
  let vertices ← scanTweets collectVertices files []
  let scan ← scanTweets addTweet files ⟨0, 0, []⟩
  .ok {
    vertices := vertices.state
    edges := scan.state.edges
    tsStart := scan.tsStart
    tsEnd := scan.tsEnd }

end ExpSetupHelper

end RailwayDB
