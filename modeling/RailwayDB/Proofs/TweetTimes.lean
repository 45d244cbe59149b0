/-
The times the tweet loader gives its edges.

Within a second the time of a tweet is the second and the number of targets before it
(`timestamp`), and its edges come one after the other from there (`start`).  A tweet has
at least as many targets as edges, so the edges of a second increase.  Nothing keeps a
second's tweets from running past the next one: with more than a thousand targets in
a second its edges may be later than the first of the seconds after it.  When a tweet's
time is exactly that of the one before, the counter of edges is not reset
(`carried`), and the tweets after it are told apart from a count that leaves those
edges out.

All of this is stated of the tweets before a given one, the latest first.
-/
import RailwayDB.Core.TweetLoader
import RailwayDB.Lib.Except
import RailwayDB.Proofs.InteractionGraph
import Mathlib.Data.List.ReduceOption
import Mathlib.Data.List.Chain

namespace RailwayDB.ExpSetupHelper

/-- A tweet with the start of its day. -/
abbrev Timed : Type := Nat × Tweet

def second (x : Timed) : Nat := x.1 + x.2.time

/-- `tos.size()`. -/
def targets (x : Timed) : Nat := x.2.mentionedUsers.length + 1

/-- The targets that are not the sender. -/
def edgeCount (x : Timed) : Nat :=
  (-x.2.userId :: x.2.mentionedUsers).countP fun to_ => x.2.userId ≠ to_

theorem edgeCount_le (x : Timed) : edgeCount x ≤ targets x := List.countP_le_length

/-- How many targets come before a tweet in its second. -/
def offset (past : List Timed) (s : Nat) : Nat :=
  ((past.filter fun p => second p = s).map targets).sum

def timestamp (past : List Timed) (x : Timed) : Nat := second x * 1000 + offset past (second x)

/-- The edges counted on from the tweet before, where the two have one timestamp. -/
def carried : List Timed → Timed → Nat
  | [], _ => 0
  | p :: past, x => if timestamp past p = timestamp (p :: past) x then edgeCount p else 0

/-- The time of the first edge of a tweet. -/
def start (past : List Timed) (x : Timed) : Nat := timestamp past x + carried past x

/-- One more than the last time so far; no edge may have the time zero. -/
def lastEnd : List Timed → Nat
  | [] => 1
  | p :: past => if edgeCount p = 0 then lastEnd past else start past p + edgeCount p

/-! ### Seconds that do not decrease -/

/-- The latest first. -/
def Ordered (past : List Timed) : Prop := past.Pairwise fun x y => second y ≤ second x

theorem offset_cons (p : Timed) (past : List Timed) (s : Nat) :
    offset (p :: past) s = (if second p = s then targets p else 0) + offset past s := by
  unfold offset
  rw [List.filter_cons]
  by_cases h : second p = s
  · simp [h]
  · simp [h]

theorem offset_eq_zero {past : List Timed} {s : Nat} (h : ∀ p ∈ past, second p < s) :
    offset past s = 0 := by
  unfold offset
  rw [List.filter_eq_nil_iff.mpr]
  · rfl
  · intro p hp
    have := h p hp
    simp only [decide_eq_true_eq]
    omega

/-- In one second the later tweet has room for the earlier one. -/
theorem timestamp_same {p x : Timed} (newer : List Timed) {older : List Timed}
    (h : second p = second x) :
    timestamp older p + targets p ≤ timestamp (newer ++ p :: older) x := by
  unfold timestamp
  have hoffset : targets p + offset older (second x) ≤ offset (newer ++ p :: older) (second x) := by
    unfold offset
    rw [List.filter_append, List.map_append, List.sum_append, List.filter_cons,
      if_pos (by simp [h]), List.map_cons, List.sum_cons]
    omega
  rw [h]
  omega

/-- A tweet later than the second before starts its second. -/
theorem offset_of_new {p x : Timed} {past : List Timed} (h : Ordered (x :: p :: past))
    (hne : second p ≠ second x) : offset (p :: past) (second x) = 0 := by
  obtain ⟨hx, hpast⟩ := List.pairwise_cons.mp h
  obtain ⟨hp, -⟩ := List.pairwise_cons.mp hpast
  have hlt : second p < second x := lt_of_le_of_ne (hx p List.mem_cons_self) hne
  refine offset_eq_zero ?_
  intro q hq
  rcases List.mem_cons.mp hq with rfl | hq
  · exact hlt
  · exact lt_of_le_of_lt (hp q hq) hlt

/-- Two tweets in a row with one timestamp are of two seconds. -/
theorem second_ne_of_timestamp {p x : Timed} {past : List Timed}
    (h : timestamp past p = timestamp (p :: past) x) : second p ≠ second x := by
  intro heq
  have hroom : timestamp past p + targets p ≤ timestamp (p :: past) x :=
    timestamp_same [] heq
  have hpos : 0 < targets p := Nat.succ_pos _
  omega

/-- The first of two such tweets is not the second of such a pair. -/
theorem carried_eq_zero {p x : Timed} {past : List Timed} (h : Ordered (x :: p :: past))
    (hsame : timestamp past p = timestamp (p :: past) x) : carried past p = 0 := by
  have hx := offset_of_new h (second_ne_of_timestamp hsame)
  cases past with
  | nil => rfl
  | cons q past =>
      show (if timestamp past q = timestamp (q :: past) p then edgeCount q else 0) = 0
      refine if_neg ?_
      intro hagain
      have hp := offset_of_new (List.pairwise_cons.mp h).2 (second_ne_of_timestamp hagain)
      have hne := second_ne_of_timestamp hsame
      unfold timestamp at hsame
      rw [hx, hp] at hsame
      omega

/-! ### When the times increase -/

/-- The times of the edges so far, in order. -/
def times : List Timed → List Nat
  | [] => []
  | p :: past => times past ++ List.range' (start past p) (edgeCount p)

theorem lastEnd_eq (past : List Timed) :
    ∃ t, (0 :: times past).getLast? = some t ∧ lastEnd past = t + 1 := by
  induction past with
  | nil => exact ⟨0, rfl, rfl⟩
  | cons p past ih =>
      unfold times lastEnd
      rw [← List.cons_append, List.getLast?_append, List.getLast?_range']
      by_cases hnone : edgeCount p = 0
      · rw [if_pos hnone, if_pos hnone]
        exact ih
      · rw [if_neg hnone, if_neg hnone]
        exact ⟨start past p + edgeCount p - 1, rfl, by omega⟩

/-- Each tweet with an edge starts after the edges before it. -/
def Follows (past : List Timed) : Prop :=
  ∀ newer x older, past = newer ++ x :: older → edgeCount x ≠ 0 → lastEnd older ≤ start older x

/-- What holds at every place of a list, place by place. -/
theorem forall_split_cons {α : Type} {Q : List α → α → Prop} {p : α} {past : List α} :
    (∀ newer x older, p :: past = newer ++ x :: older → Q older x) ↔
      (∀ newer x older, past = newer ++ x :: older → Q older x) ∧ Q past p := by
  refine ⟨?_, ?_⟩
  · intro h
    refine ⟨?_, h [] p past rfl⟩
    intro newer x older heq
    exact h (p :: newer) x older (by rw [heq]; rfl)
  · intro ⟨hpast, hp⟩ newer x older heq
    cases newer with
    | nil =>
        obtain ⟨rfl, rfl⟩ := List.cons.inj heq
        exact hp
    | cons q newer => exact hpast newer x older (List.cons.inj heq).2

theorem follows_cons {p : Timed} {past : List Timed} :
    Follows (p :: past) ↔ Follows past ∧ (edgeCount p ≠ 0 → lastEnd past ≤ start past p) :=
  forall_split_cons (Q := fun older x => edgeCount x ≠ 0 → lastEnd older ≤ start older x)

/-- The times increase exactly when each tweet follows the one before. -/
theorem isChain_times (past : List Timed) : (0 :: times past).IsChain (· < ·) ↔ Follows past := by
  induction past with
  | nil => exact iff_of_true (List.isChain_singleton 0) fun newer x older heq => by simp at heq
  | cons p past ih =>
      obtain ⟨t, hlast, hend⟩ := lastEnd_eq past
      have hown : (List.range' (start past p) (edgeCount p)).IsChain (· < ·) :=
        List.Pairwise.isChain List.pairwise_lt_range'
      rw [follows_cons, ← ih, hend]
      show (0 :: times past ++ List.range' (start past p) (edgeCount p)).IsChain (· < ·) ↔ _
      rw [List.isChain_append, hlast, List.head?_range']
      refine and_congr_right fun _ => ?_
      by_cases hnone : edgeCount p = 0
      · rw [if_pos hnone]
        exact iff_of_true ⟨hown, by simp⟩ fun h => absurd hnone h
      · rw [if_neg hnone]
        refine ⟨fun h _ => h.2 t rfl _ rfl, fun h => ⟨hown, ?_⟩⟩
        intro t' ht' y hy
        rw [← Option.some.inj ht', ← Option.some.inj hy]
        exact h hnone

/-! ### Where they can fail to -/

/-- No tweet before it in its second has an edge. -/
def OpensSecond (past : List Timed) (x : Timed) : Prop :=
  ∀ p ∈ past, second p = second x → edgeCount p = 0

/-- Edges were counted on into its second from the one before. -/
def Shifted (past : List Timed) (x : Timed) : Prop :=
  ∃ newer p older, past = newer ++ p :: older ∧ second p = second x ∧ carried older p ≠ 0

/-- The last tweet with an edge. -/
theorem lastEnd_cases (past : List Timed) :
    (∀ p ∈ past, edgeCount p = 0) ∨ ∃ newer p older, past = newer ++ p :: older ∧
      (∀ q ∈ newer, edgeCount q = 0) ∧ lastEnd past = start older p + edgeCount p := by
  induction past with
  | nil => exact Or.inl fun p hp => by simp at hp
  | cons p past ih =>
      unfold lastEnd
      by_cases hnone : edgeCount p = 0
      · rw [if_pos hnone]
        rcases ih with hall | ⟨newer, x, older, heq, hnewer, hend⟩
        · exact Or.inl (List.forall_mem_cons.mpr ⟨hnone, hall⟩)
        · refine Or.inr ⟨p :: newer, x, older, by rw [heq]; rfl, ?_, hend⟩
          exact List.forall_mem_cons.mpr ⟨hnone, hnewer⟩
      · rw [if_neg hnone]
        exact Or.inr ⟨[], p, past, rfl, fun q hq => by simp at hq, rfl⟩

/-- A second that was not shifted keeps its edges apart. -/
theorem lastEnd_le_of_second {past : List Timed} {x : Timed} (h : Ordered (x :: past))
    (hopen : ¬ OpensSecond past x) (hshifted : ¬ Shifted past x) :
    lastEnd past ≤ start past x := by
  obtain ⟨hx, hpast⟩ := List.pairwise_cons.mp h
  unfold OpensSecond at hopen
  push Not at hopen
  obtain ⟨q, hq, hsame, hedges⟩ := hopen
  rcases lastEnd_cases past with hall | ⟨newer, p, older, heq, hnewer, hend⟩
  · exact absurd (hall q hq) hedges
  · have hp : second p = second x := by
      have hle : second p ≤ second x := hx p (by rw [heq]; simp)
      rw [heq] at hq hpast
      rcases List.mem_append.mp hq with hq | hq
      · exact absurd (hnewer q hq) hedges
      · rcases List.mem_cons.mp hq with rfl | hq
        · exact hsame
        · have hge := (List.pairwise_cons.mp (List.pairwise_append.mp hpast).2.1).1 q hq
          omega
    have hnone : carried older p = 0 := by
      by_contra hcarried
      exact hshifted ⟨newer, p, older, heq, hp, hcarried⟩
    have hroom : timestamp older p + targets p ≤ timestamp (newer ++ p :: older) x :=
      timestamp_same newer hp
    have hcount := edgeCount_le p
    rw [hend, heq]
    unfold start
    omega

/-! ### What a scan makes of the files -/

/-- The tweets in the order they are scanned. -/
def tweets (files : List TweetFile) : List Timed :=
  files.flatMap fun file => file.lines.reduceOption.map fun tweet => (file.dayTime, tweet)

section Scan

variable {σ : Type} {visitor : Visitor σ}

def scanTweet (visitor : Visitor σ) (scan : Scan σ) (x : Timed) : Except Fault (Scan σ) :=
  scanLine visitor x.1 scan (some x.2)

theorem scanFile_eq (scan : Scan σ) (file : TweetFile) :
    scanFile visitor scan file =
      (file.lines.reduceOption.map fun tweet => (file.dayTime, tweet)).foldlM (scanTweet visitor)
        scan := by
  obtain ⟨dayTime, lines⟩ := file
  unfold scanFile
  induction lines generalizing scan with
  | nil => rfl
  | cons line lines ih =>
      cases line with
      | none => exact ih scan
      | some tweet =>
          rw [List.reduceOption_cons_of_some, List.map_cons, List.foldlM_cons, List.foldlM_cons]
          show scanTweet visitor scan (dayTime, tweet) >>= _ = _
          congr 1
          funext scan'
          exact ih scan'

/-- One tweet, with the count of targets it starts from. -/
theorem scanTweet_eq {scan : Scan σ} {x : Timed} (hid : x.2.userId ≠ BitVec.intMin 64)
    {before : Nat}
    (hbefore : (if ((second x * 1000 : Nat) : Int) ≠ scan.pts then 0 else scan.repeat_) = before) :
    scanTweet visitor scan x =
      visitor scan.state (second x * 1000 + before) x.2.userId
        (-x.2.userId :: x.2.mentionedUsers) >>= fun state =>
          .ok {
            repeat_ := before + targets x
            pts := ((second x * 1000 : Nat) : Int)
            tsStart := if second x * 1000 ≤ scan.tsStart then second x * 1000 else scan.tsStart
            tsEnd := if second x * 1000 ≥ scan.tsEnd then second x * 1000 else scan.tsEnd
            state := state } := by
  have hparse : parseTweet x.2 = .ok (x.2.userId, -x.2.userId :: x.2.mentionedUsers) := if_neg hid
  rw [← hbefore]
  unfold scanTweet scanLine
  simp only [hparse, Except.ok_bind]
  rfl

theorem scanTweet_intMin {scan : Scan σ} {x : Timed} (hid : x.2.userId = BitVec.intMin 64) :
    scanTweet visitor scan x = .error (.undefined .intOverflow) := by
  have hparse : parseTweet x.2 = .error (.undefined .intOverflow) := if_pos hid
  unfold scanTweet scanLine
  simp only [hparse, Except.error_bind]

/-- Lines that are no tweets and the ends of files make no difference. -/
theorem scanTweets_eq (files : List TweetFile) (state : σ) :
    scanTweets visitor files state =
      (tweets files).foldlM (scanTweet visitor) ⟨0, -1, 2 ^ 64 - 1, 0, state⟩ := by
  unfold scanTweets tweets
  generalize (⟨0, -1, 2 ^ 64 - 1, 0, state⟩ : Scan σ) = scan
  induction files generalizing scan with
  | nil => rfl
  | cons file files ih =>
      rw [List.foldlM_cons, List.flatMap_cons, List.foldlM_append, scanFile_eq]
      congr 1
      funext scan'
      exact ih scan'

end Scan

/-! ### The second scan -/

/-- The edges of one tweet, as long as they can be counted. -/
theorem addTargets_eq (timestamp_ : Nat) (from_ : BitVec 64) (tos : List (BitVec 64))
    {p : Population} (hi : p.i ≤ maxInt) :
    (p.i + tos.countP (fun to_ => from_ ≠ to_) ≤ maxInt →
      ∃ edges, tos.foldlM (addTarget timestamp_ from_) p = .ok
          { p with i := p.i + tos.countP (fun to_ => from_ ≠ to_), edges := p.edges ++ edges } ∧
        edges.map TweetEdge.time =
          List.range' (timestamp_ + p.i) (tos.countP (fun to_ => from_ ≠ to_))) ∧
    (maxInt < p.i + tos.countP (fun to_ => from_ ≠ to_) →
      tos.foldlM (addTarget timestamp_ from_) p = .error (.undefined .intOverflow)) := by
  induction tos generalizing p with
  | nil =>
      refine ⟨fun _ => ⟨[], ?_, rfl⟩, fun h => absurd h (by simpa using hi)⟩
      rw [List.append_nil]
      rfl
  | cons to_ tos ih =>
      rw [List.foldlM_cons, List.countP_cons]
      by_cases hself : from_ = to_
      · have hstep : addTarget timestamp_ from_ p to_ = .ok p := if_neg (not_not.mpr hself)
        rw [hstep, Except.ok_bind, if_neg (by simpa using hself), Nat.add_zero]
        exact ih hi
      · rw [if_pos (by simpa using hself)]
        by_cases hfull : p.i = maxInt
        · have hstep : addTarget timestamp_ from_ p to_ = .error (.undefined .intOverflow) := by
            unfold addTarget
            rw [if_pos hself]
            exact if_pos hfull
          rw [hstep, Except.error_bind]
          exact ⟨fun h => absurd h (by omega), fun _ => rfl⟩
        · let edge : TweetEdge := ⟨from_.toFin, to_.toFin, timestamp_ + p.i,
            if from_.toInt > to_.toInt then [108] else [115]⟩
          have hstep : addTarget timestamp_ from_ p to_ =
              .ok { p with i := p.i + 1, edges := p.edges ++ [edge] } := by
            unfold addTarget
            rw [if_pos hself]
            exact if_neg hfull
          rw [hstep, Except.ok_bind]
          have hroom : p.i + 1 ≤ maxInt := by omega
          obtain ⟨hok, herror⟩ :=
            ih (p := { p with i := p.i + 1, edges := p.edges ++ [edge] }) hroom
          rw [show p.i + 1 + _ = p.i + (_ + 1) from Nat.add_right_comm p.i 1 _] at hok herror
          refine ⟨?_, herror⟩
          intro hfits
          obtain ⟨edges, hfold, htimes⟩ := hok hfits
          refine ⟨edge :: edges, ?_, ?_⟩
          · rw [hfold, List.append_assoc]
            rfl
          · rw [List.map_cons, htimes, List.range'_succ]
            rfl

/-- What the second scan holds after the tweets so far. -/
structure Scanned (past : List Timed) (scan : Scan Population) : Prop where
  pts : scan.pts = match past with
    | [] => -1
    | p :: _ => ((second p * 1000 : Nat) : Int)
  repeats : ∀ p older, past = p :: older → scan.repeat_ = offset past (second p)
  last : ∀ p older, past = p :: older → scan.state.lastTimestamp = timestamp older p ∧
    scan.state.i = carried older p + edgeCount p
  none : past = [] → scan.state.i = 0
  room : scan.state.i ≤ maxInt
  edges : scan.state.edges.map TweetEdge.time = times past

theorem scanned_nil : Scanned [] ⟨0, -1, 2 ^ 64 - 1, 0, ⟨0, 0, []⟩⟩ :=
  ⟨rfl, fun p older h => by simp at h, fun p older h => by simp at h, fun _ => rfl,
    Nat.zero_le _, rfl⟩

section Step

variable {past : List Timed} {scan : Scan Population} {x : Timed}

/-- The count of targets the next tweet starts from. -/
theorem Scanned.targetsBefore (h : Scanned past scan) (hord : Ordered (x :: past)) :
    (if ((second x * 1000 : Nat) : Int) ≠ scan.pts then 0 else scan.repeat_) =
      offset past (second x) := by
  rw [h.pts]
  cases past with
  | nil =>
      rw [if_pos (by simp only; omega)]
      rfl
  | cons p past =>
      simp only
      by_cases hsame : second p = second x
      · rw [if_neg (by rw [hsame]; simp), h.repeats p past rfl, hsame]
      · rw [if_pos (by omega), offset_of_new hord hsame]

/-- The count of edges it starts from. -/
theorem Scanned.edgesBefore (h : Scanned past scan) (hord : Ordered (x :: past)) :
    (if timestamp past x ≠ scan.state.lastTimestamp then
        { scan.state with i := 0, lastTimestamp := timestamp past x }
      else scan.state) =
      ({ scan.state with i := carried past x, lastTimestamp := timestamp past x } :
        Population) := by
  cases past with
  | nil =>
      show (if _ then _ else _ : Population) = ⟨0, timestamp [] x, scan.state.edges⟩
      split
      · rfl
      · rename_i hsame
        rw [not_not.mp hsame, ← h.none rfl]
  | cons p past =>
      obtain ⟨hlast, hi⟩ := h.last p past rfl
      rw [hlast]
      by_cases hsame : timestamp past p = timestamp (p :: past) x
      · rw [if_neg (not_not.mpr hsame.symm), ← hsame, ← hlast]
        show scan.state = ⟨if _ then _ else _, scan.state.lastTimestamp, scan.state.edges⟩
        rw [if_pos hsame]
        rw [carried_eq_zero hord hsame, Nat.zero_add] at hi
        rw [← hi]
      · rw [if_pos (Ne.symm hsame)]
        show _ = (⟨if _ then _ else _, _, _⟩ : Population)
        rw [if_neg hsame]

theorem Scanned.carried_le (h : Scanned past scan) : carried past x ≤ maxInt := by
  cases past with
  | nil => exact Nat.zero_le _
  | cons p past =>
      obtain ⟨-, hi⟩ := h.last p past rfl
      have hroom := h.room
      show (if _ then edgeCount p else 0) ≤ maxInt
      split
      · omega
      · omega

/-- A tweet whose edges can be counted is taken in. -/
theorem Scanned.step (h : Scanned past scan) (hord : Ordered (x :: past))
    (hid : x.2.userId ≠ BitVec.intMin 64) :
    (carried past x + edgeCount x ≤ maxInt →
      ∃ scan', scanTweet addTweet scan x = .ok scan' ∧ Scanned (x :: past) scan') ∧
    (maxInt < carried past x + edgeCount x →
      scanTweet addTweet scan x = .error (.undefined .intOverflow)) := by
  have hscan : scanTweet addTweet scan x = _ := scanTweet_eq hid (h.targetsBefore hord)
  unfold addTweet at hscan
  rw [show second x * 1000 + offset past (second x) = timestamp past x from rfl,
    h.edgesBefore hord] at hscan
  obtain ⟨hok, herror⟩ := addTargets_eq (timestamp past x) x.2.userId
    (-x.2.userId :: x.2.mentionedUsers)
    (p := { scan.state with i := carried past x, lastTimestamp := timestamp past x }) h.carried_le
  refine ⟨?_, ?_⟩
  · intro hroom
    obtain ⟨edges, hfold, htimes⟩ := hok hroom
    refine ⟨_, by rw [show scanTweet addTweet scan x = _ from hscan, hfold]; rfl, ?_⟩
    refine ⟨rfl, ?_, ?_, ?_, hroom, ?_⟩
    · intro p older heq
      obtain ⟨rfl, rfl⟩ := List.cons.inj heq
      show offset past (second x) + targets x = offset (x :: past) (second x)
      rw [offset_cons, if_pos rfl, Nat.add_comm]
    · intro p older heq
      obtain ⟨rfl, rfl⟩ := List.cons.inj heq
      exact ⟨rfl, rfl⟩
    · intro heq
      simp at heq
    · show (scan.state.edges ++ edges).map TweetEdge.time = _
      rw [List.map_append, h.edges, htimes]
      rfl
  · intro hover
    rw [show scanTweet addTweet scan x = _ from hscan, herror hover, Except.error_bind]

end Step

/-- Every sender has a negative and the edges of every tweet can be counted. -/
structure Countable (past : List Timed) : Prop where
  negatable : ∀ x ∈ past, x.2.userId ≠ BitVec.intMin 64
  counted : ∀ newer x older, past = newer ++ x :: older → carried older x + edgeCount x ≤ maxInt

theorem countable_cons {x : Timed} {past : List Timed} :
    Countable (x :: past) ↔ Countable past ∧ x.2.userId ≠ BitVec.intMin 64 ∧
      carried past x + edgeCount x ≤ maxInt := by
  have hcounts : (∀ newer y older, x :: past = newer ++ y :: older →
      carried older y + edgeCount y ≤ maxInt) ↔ _ :=
    forall_split_cons (Q := fun older y => carried older y + edgeCount y ≤ maxInt)
  refine ⟨?_, ?_⟩
  · intro h
    obtain ⟨hid, hids⟩ := List.forall_mem_cons.mp h.negatable
    obtain ⟨hpast, hx⟩ := hcounts.mp h.counted
    exact ⟨⟨hids, hpast⟩, hid, hx⟩
  · intro ⟨hpast, hid, hx⟩
    exact ⟨List.forall_mem_cons.mpr ⟨hid, hpast.negatable⟩, hcounts.mpr ⟨hpast.counted, hx⟩⟩

/-- The second scan goes through all tweets or stops at one whose edges cannot be counted. -/
theorem scan_cases {ts : List Timed} (hord : Ordered ts.reverse) :
    (Countable ts.reverse ∧ ∃ scan, ts.foldlM (scanTweet addTweet)
        ⟨0, -1, 2 ^ 64 - 1, 0, ⟨0, 0, []⟩⟩ = .ok scan ∧ Scanned ts.reverse scan) ∨
    (¬ Countable ts.reverse ∧ ∃ fault, ts.foldlM (scanTweet addTweet)
        ⟨0, -1, 2 ^ 64 - 1, 0, ⟨0, 0, []⟩⟩ = .error fault) := by
  induction ts using List.reverseRecOn with
  | nil =>
      refine Or.inl ⟨⟨fun x hx => by simp at hx, ?_⟩, _, rfl, scanned_nil⟩
      intro newer x older heq
      simp at heq
  | append_singleton ts x ih =>
      rw [List.reverse_append, List.reverse_singleton, List.singleton_append] at hord ⊢
      rw [countable_cons, List.foldlM_append]
      simp only [List.foldlM_cons, List.foldlM_nil, bind_pure]
      rcases ih (List.pairwise_cons.mp hord).2 with
        ⟨hcount, scan, hrun, hscan⟩ | ⟨hcount, fault, hrun⟩
      · rw [hrun, Except.ok_bind]
        by_cases hid : x.2.userId = BitVec.intMin 64
        · exact Or.inr ⟨fun h => h.2.1 hid, _, scanTweet_intMin hid⟩
        · obtain ⟨hok, herror⟩ := hscan.step hord hid
          by_cases hroom : carried ts.reverse x + edgeCount x ≤ maxInt
          · exact Or.inl ⟨⟨hcount, hid, hroom⟩, hok hroom⟩
          · exact Or.inr ⟨fun h => hroom h.2.2, _, herror (Nat.lt_of_not_le hroom)⟩
      · rw [hrun]
        exact Or.inr ⟨fun h => hcount h.1, fault, rfl⟩

/-- The first scan stops at a sender without a negative only. -/
theorem vertices_ok {ts : List Timed} (hid : ∀ x ∈ ts, x.2.userId ≠ BitVec.intMin 64)
    (scan : Scan (List (BitVec 64))) :
    ∃ scan', ts.foldlM (scanTweet collectVertices) scan = .ok scan' := by
  induction ts generalizing scan with
  | nil => exact ⟨scan, rfl⟩
  | cons x ts ih =>
      obtain ⟨hx, hts⟩ := List.forall_mem_cons.mp hid
      rw [List.foldlM_cons, scanTweet_eq hx rfl]
      exact ih hts _

/-! ### The times of a directory -/

/-- The directory is loaded, and every edge is later than the one before, the first than zero. -/
def Increasing (files : List TweetFile) : Prop :=
  ∃ loaded, populateGraphFromTweets files = .ok loaded ∧
    (0 :: loaded.edges.map TweetEdge.time).IsChain (· < ·)

/-- The second scan decides. -/
theorem increasing_iff_follows {files : List TweetFile} (hord : Ordered (tweets files).reverse) :
    Increasing files ↔ Countable (tweets files).reverse ∧ Follows (tweets files).reverse := by
  unfold Increasing populateGraphFromTweets
  simp only [scanTweets_eq]
  rcases scan_cases hord with ⟨hcount, scan, hrun, hscan⟩ | ⟨hcount, fault, hrun⟩
  · obtain ⟨vertices, hvertices⟩ := @vertices_ok (tweets files)
      (fun x hx => hcount.negatable x (List.mem_reverse.mpr hx)) ⟨0, -1, 2 ^ 64 - 1, 0, []⟩
    simp only [hrun, hvertices, Except.ok_bind, Except.ok.injEq]
    rw [← isChain_times, ← hscan.edges]
    refine ⟨?_, ?_⟩
    · intro ⟨loaded, heq, hchain⟩
      rw [← heq] at hchain
      exact ⟨hcount, hchain⟩
    · intro ⟨_, hchain⟩
      exact ⟨_, rfl, hchain⟩
  · refine iff_of_false ?_ fun h => hcount h.1
    intro ⟨loaded, hload, _⟩
    obtain ⟨vertices, -, hload⟩ := Except.bind_eq_ok.mp hload
    rw [hrun] at hload
    simp at hload

/-- What keeps the edges of different seconds apart. -/
structure Separated (past : List Timed) : Prop where
  countable : Countable past
  handed : ∀ newer x older, past = newer ++ x :: older → edgeCount x ≠ 0 →
    OpensSecond older x ∨ Shifted older x → lastEnd older ≤ start older x

/-- **The times increase exactly when no second runs into the next one with an edge.** -/
theorem increasing_iff {files : List TweetFile}
    (hord : (tweets files).Pairwise fun x y => second x ≤ second y) :
    Increasing files ↔ Separated (tweets files).reverse := by
  have hordered : Ordered (tweets files).reverse := List.pairwise_reverse.mpr hord
  rw [increasing_iff_follows hordered]
  refine ⟨fun h => ⟨h.1, fun newer x older heq hedges _ => h.2 newer x older heq hedges⟩, ?_⟩
  intro h
  refine ⟨h.countable, ?_⟩
  intro newer x older heq hedges
  by_cases hopen : OpensSecond older x
  · exact h.handed newer x older heq hedges (Or.inl hopen)
  · by_cases hshifted : Shifted older x
    · exact h.handed newer x older heq hedges (Or.inr hshifted)
    · rw [heq] at hordered
      exact lastEnd_le_of_second (List.pairwise_append.mp hordered).2.1 hopen hshifted

/-! ### The calls on a graph -/

section Session

variable {P T S : Type} [LinearOrder T] [LinearOrder S] [Score S] [TimeScore T S] [Timestamp T]
  [BlockTime T] [SliceIndex P T] {vertexSchema edgeSchema : Schema}

/-- The calls of `addEdge` for these edges, where `stamp` is a number as a timestamp. -/
def addEdges (ω : Nat → Oracle S) (stamp : Nat → T) (data : TweetEdge → List Value) :
    List TweetEdge → Session P T S vertexSchema edgeSchema Unit
  | [] => pure ()
  | e :: edges => do
      InteractionGraph.addEdge ω e.v e.u (stamp e.time) (data e)
      addEdges ω stamp data edges

end Session

/-! ### Two seconds -/

section Example

/-- Two tweets in one second, a line that is no tweet, and one in the next second. -/
def twoSeconds : List TweetFile :=
  [⟨0, [some ⟨1, 5, [6, 5]⟩, none, some ⟨1, 6, []⟩]⟩, ⟨0, [some ⟨2, 5, [6]⟩]⟩]

theorem increasing_twoSeconds :
    Increasing twoSeconds ∧ Separated (tweets twoSeconds).reverse := by
  have htimes : (populateGraphFromTweets twoSeconds).toOption.map
      (fun loaded => loaded.edges.map TweetEdge.time) = some [1000, 1001, 1003, 2000, 2001] := by
    decide +kernel
  obtain ⟨loaded, hload, heq⟩ := Except.of_toOption_map htimes
  have hincreasing : Increasing twoSeconds := ⟨loaded, hload, by rw [heq]; decide⟩
  exact ⟨hincreasing, (increasing_iff (by decide)).mp hincreasing⟩

/-- A tweet with 1001 mentions and one in the next second. -/
def crowdedSecond : List TweetFile :=
  [⟨0, [some ⟨1, 5, List.replicate 1001 6⟩, some ⟨2, 5, []⟩]⟩]

theorem not_increasing : ¬ ∀ files, (tweets files).Pairwise (fun x y => second x ≤ second y) →
    Increasing files := by
  intro hall
  have hord : (tweets crowdedSecond).Pairwise fun x y => second x ≤ second y := by decide +kernel
  obtain ⟨-, hfollows⟩ := (increasing_iff_follows (List.pairwise_reverse.mpr hord)).mp
    (hall crowdedSecond hord)
  have hlate := hfollows [] (0, ⟨2, 5, []⟩) [(0, ⟨1, 5, List.replicate 1001 6⟩)] rfl (by decide)
  exact absurd hlate (by decide +kernel)

end Example

end RailwayDB.ExpSetupHelper
