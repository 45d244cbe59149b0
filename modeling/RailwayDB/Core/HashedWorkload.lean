/-
`QuerySummary.h`, `Query.h` and `QueryWorkload.cpp`: the queries of a workload as
keys of hash maps.

`Core/QueryWorkload.lean` has the workload as the optimizer reads it, where a summary
is its attributes.  Here a summary is the object of the source, with the hash code it
keeps beside its attributes.  Attributes are held by address: `A` is the type of
pointers, ordered as `std::sort` orders them.  `N` is that of names.  What `std::hash`
makes of a pointer and of a name is a parameter.  Counts are doubles in the source and
exact rationals here; the times of a query play no part.
-/
import RailwayDB.Core.Types
import RailwayDB.Lib.UnorderedMap
import Mathlib.Data.List.AList
import Mathlib.Data.List.Sort
import Mathlib.Algebra.Order.Field.Rat

namespace RailwayDB.Common.Hashed

variable {A N : Type}

structure QuerySummary (A : Type) where
  attributes : List A
  hash : BitVec 64
  deriving DecidableEq, Repr

namespace QuerySummary

/-- `hash()`. -/
def hashOf (ptrHash : A → BitVec 64) (attributes : List A) : BitVec 64 :=
  attributes.foldl (fun hval attr => hval * 37 + ptrHash attr) 17

/-- `QuerySummary()`: `hash_` is what happens to be there. -/
def new (hash : BitVec 64) : QuerySummary A := ⟨[], hash⟩

def addAttribute (summary : QuerySummary A) (attrb : A) : QuerySummary A :=
  { summary with attributes := summary.attributes ++ [attrb] }

def setAttributes (summary : QuerySummary A) (attributes : List A) : QuerySummary A :=
  { summary with attributes := attributes }

def getHashCode (summary : QuerySummary A) : BitVec 64 := summary.hash

/-- `operator==`. -/
def equals [DecidableEq A] (summary other : QuerySummary A) : Bool :=
  summary.attributes.length = other.attributes.length &&
    (summary.attributes.zip other.attributes).all fun p => p.1 = p.2

/-- `QuerySummary(attributes)`. -/
def ofAttributes [LinearOrder A] (ptrHash : A → BitVec 64) (attributes : List A) :
    QuerySummary A :=
  let attributes := attributes.insertionSort (· ≤ ·)
  ⟨attributes, hashOf ptrHash attributes⟩

end QuerySummary

instance hashKey_querySummary [DecidableEq A] : HashKey (QuerySummary A) where
  getHashCode := QuerySummary.getHashCode
  equals := QuerySummary.equals

structure Query (N : Type) where
  attributeNames : List N
  hash : BitVec 64
  deriving DecidableEq, Repr

namespace Query

/-- `hash()`. -/
def hashOf (nameHash : N → BitVec 64) (attributeNames : List N) : BitVec 64 :=
  attributeNames.foldl (fun hval attr => hval * 37 + nameHash attr) 17

/-- `Query(start, end, attributeNames)`. -/
def new [LinearOrder N] (nameHash : N → BitVec 64) (attributeNames : List N) : Query N :=
  let attributeNames := attributeNames.insertionSort (· ≤ ·)
  ⟨attributeNames, hashOf nameHash attributeNames⟩

def getHashCode (q : Query N) : BitVec 64 := q.hash

/-- `operator==`. -/
def equals [DecidableEq N] (q other : Query N) : Bool :=
  q.attributeNames.length = other.attributeNames.length &&
    (q.attributeNames.zip other.attributeNames).all fun p => p.1 = p.2

end Query

instance hashKey_query [DecidableEq N] : HashKey (Query N) where
  getHashCode := Query.getHashCode
  equals := Query.equals

structure QueryWorkload (A N : Type) where
  attributes : List A
  queries : List (QuerySummary A)
  summaries : UnorderedMap (Query N) (QuerySummary A)
  counts : UnorderedMap (QuerySummary A) ℚ
  nameToAttribute : AList fun _ : N => A
  totalQueries : ℚ

namespace QueryWorkload

/-- `QueryWorkload()`: `totalQueries_` is what happens to be there. -/
def new (totalQueries : ℚ) : QueryWorkload A N :=
  { attributes := [], queries := [], summaries := .empty, counts := .empty,
    nameToAttribute := ∅, totalQueries := totalQueries }

def addAttribute (workload : QueryWorkload A N) (attrb : A) : QueryWorkload A N :=
  { workload with attributes := workload.attributes ++ [attrb] }

def addQuerySummary (workload : QueryWorkload A N) (query : QuerySummary A) : QueryWorkload A N :=
  { workload with queries := workload.queries ++ [query] }

variable [DecidableEq N]

/-- `QueryWorkload(attributes)`. -/
def ofAttributes (getName : A → N) (attributes : List A) : QueryWorkload A N :=
  attributes.foldl
    (fun workload attrb => { workload.addAttribute attrb with
      nameToAttribute := workload.nameToAttribute.insert (getName attrb) attrb })
    (new 0)

variable [LinearOrder A]

def getFrequency (workload : QueryWorkload A N) (s : QuerySummary A) : Except Fault ℚ :=
  match workload.counts.find? s with
  | some count => .ok (count / workload.totalQueries)
  | none => .error (.assertFailed .getFrequencyCount)

def setFrequency (workload : QueryWorkload A N) (s : QuerySummary A) (f : ℚ) : QueryWorkload A N :=
  { workload with totalQueries := 1, counts := workload.counts.emplace s f }

/-- `nameToAttribute_.find(name)->second`. -/
def attributeOf (workload : QueryWorkload A N) (name : N) : Except Fault A :=
  match workload.nameToAttribute.lookup name with
  | some attrb => .ok attrb
  | none => .error (.assertFailed .addQueryName)

/-- A query that has come before. -/
def countAgain (workload : QueryWorkload A N) (summary : QuerySummary A) :
    Except Fault (QueryWorkload A N) :=
  match workload.counts.find? summary with
  | none => .error (.undefined .missingKey)
  | some count =>
      .ok { workload with
        counts := (workload.counts.assign summary (count + 1)).emplace summary (count + 1) }

/-- A query that has not. -/
def countFirst (ptrHash : A → BitVec 64) (workload : QueryWorkload A N) (q : Query N) :
    Except Fault (QueryWorkload A N) := do
  let attributes ← q.attributeNames.mapM workload.attributeOf
  let summary := QuerySummary.ofAttributes ptrHash attributes
  return { workload with
    queries := workload.queries ++ [summary]
    summaries := workload.summaries.emplace q summary
    counts := workload.counts.emplace summary 1 }

def addQuery (ptrHash : A → BitVec 64) (workload : QueryWorkload A N) (q : Query N) :
    Except Fault (QueryWorkload A N) :=
  let workload := { workload with totalQueries := workload.totalQueries + 1 }
  match workload.summaries.find? q with
  | some summary => workload.countAgain summary
  | none => workload.countFirst ptrHash q

end QueryWorkload

end RailwayDB.Common.Hashed
