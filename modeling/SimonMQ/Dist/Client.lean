import Mathlib.Tactic.IntervalCases
import SimonMQ.Go.Strconv

namespace SimonMQ.Dist

open SimonMQ.Go

/-! The cluster client of the test harness: one logical write, driven over redirects,
elections and lost answers to a verdict. -/

inductive Outcome
  | accepted
  | rejected
  | ambiguous
  deriving DecidableEq, Repr

structure Result where
  outcome : Outcome
  /-- zero when no response was ever received -/
  status : Nat
  attempts : Nat
  node : GoString
  body : Bytes
  err : Option GoString
  deriving DecidableEq, Repr

/-- What `send` comes back with.  `leader` is the leader header, empty when absent. -/
inductive Reply
  | answered (status : Nat) (leader : GoString) (body : Bytes)
  | dialFailed (err : GoString)
  | lost (err : GoString)
  deriving DecidableEq, Repr

namespace Reply

def isSuccess : Reply → Bool
  | answered status _ _ => 200 ≤ status && status < 300
  | dialFailed _ | lost _ => false

/-- The write may have reached Raft: leadership moved, or the answer was lost. -/
def mayCommit : Reply → Bool
  | answered status _ _ => status == 503
  | dialFailed _ => false
  | lost _ => true

def isRefusal : Reply → Bool
  | answered status _ _ =>
      !(200 ≤ status && status < 300) && status != 421 && status != 503
  | dialFailed _ | lost _ => false

def continues (reply : Reply) : Bool := !reply.isSuccess && !reply.isRefusal

def isRedirect : Reply → Bool
  | answered status _ _ => status == 421
  | dialFailed _ | lost _ => false

theorem not_isSuccess_of_isRefusal {reply : Reply} (hrefusal : reply.isRefusal = true) :
    reply.isSuccess = false := by
  cases reply with
  | answered status leader body =>
      simp only [isRefusal, Bool.and_eq_true, Bool.not_eq_true'] at hrefusal
      exact hrefusal.1.1
  | dialFailed err | lost err => rfl

theorem not_mayCommit_of_isRefusal {reply : Reply} (hrefusal : reply.isRefusal) :
    ¬ reply.mayCommit := by
  cases reply with
  | answered status leader body => simp_all [isRefusal, mayCommit]
  | dialFailed err => simp [mayCommit]
  | lost err => contradiction

end Reply

/-- One attempt: its reply, and whether the context is done by the end of the pause
after it. -/
structure Round where
  reply : Reply
  cancelled : Bool
  deriving DecidableEq, Repr

/-- There is a next attempt, if there may be any.  No pause follows a redirect. -/
def Round.continues (round : Round) : Bool :=
  round.reply.continues && (round.reply.isRedirect || !round.cancelled)

/-- `next` counts the nodes drawn, far below the range of an int. -/
structure Client where
  nodes : List GoString
  maxAttempts : Nat
  leader : Option GoString
  next : Nat
  nodes_ne_nil : nodes ≠ []
  maxAttempts_pos : 0 < maxAttempts

namespace Client

/-- `New`, without the settings that only say how long things take. -/
def new (nodes : List GoString) (maxAttempts : Int) : Except GoString Client :=
  if hnodes : nodes = [] then .error (lit "client: no nodes configured")
  else if hattempts : maxAttempts < 1 then
    .ok {
      nodes := nodes
      maxAttempts := 5
      leader := none
      next := 0
      nodes_ne_nil := hnodes
      maxAttempts_pos := Nat.succ_pos 4 }
  else
    .ok {
      nodes := nodes
      maxAttempts := maxAttempts.toNat
      leader := none
      next := 0
      nodes_ne_nil := hnodes
      maxAttempts_pos := by omega }

/-- `Leader`: the cached leader, or the empty string. -/
def leaderURL (client : Client) : GoString := client.leader.getD []

def setLeader (client : Client) (url : GoString) : Client :=
  { client with leader := some url }

def clearLeader (client : Client) : Client := { client with leader := none }

def draw (client : Client) : GoString × Client :=
  have hlength : 0 < client.nodes.length := List.length_pos_iff.mpr client.nodes_ne_nil
  (client.nodes.get ⟨client.next % client.nodes.length, Nat.mod_lt _ hlength⟩,
    { client with next := client.next + 1 })

def drawOther (client : Client) (current : GoString) : Nat → GoString × Client
  | 0 => (current, client)
  | tries + 1 =>
      let (next, client) := client.draw
      if next ≠ current then (next, client) else client.drawOther current tries

def otherThan (client : Client) (current : GoString) : GoString × Client :=
  if client.nodes.length = 1 then (client.nodes.head client.nodes_ne_nil, client)
  else client.drawOther current client.nodes.length

end Client

/-- The variables of the loop in `Write`. -/
structure Writing where
  client : Client
  target : GoString
  res : Result
  mayHaveCommitted : Bool

inductive Turn
  | again (writing : Writing)
  | done (writing : Writing)
  | returned (res : Result) (client : Client)

def Turn.isAgain : Turn → Bool
  | again _ => true
  | done _ | returned _ _ => false

namespace Writing

def finish (writing : Writing) : Result :=
  let res := { writing.res with
    outcome := if writing.mayHaveCommitted then .ambiguous else .rejected }
  match res.err with
  | some _ => res
  | none =>
      { res with
        err := some (lit "gave up after " ++ formatUint res.attempts ++
          lit " attempt(s), last status " ++ formatUint res.status) }

/-- One round of the loop.  `done` leaves it for `finish`. -/
def attempt (writing : Writing) (number : Nat) (round : Round) : Turn :=
  let res := { writing.res with attempts := number, node := writing.target }
  match round.reply with
  | .dialFailed err =>
      let client :=
        if writing.target = writing.client.leaderURL then writing.client.clearLeader
        else writing.client
      let (target, client) := client.otherThan writing.target
      let next := { writing with
        client := client, target := target, res := { res with err := some err } }
      if round.cancelled then .done next else .again next
  | .lost err =>
      let next := { writing with
        client := writing.client.clearLeader
        res := { res with err := some err }
        mayHaveCommitted := true }
      if round.cancelled then .done next
      else
        let (target, client) := next.client.otherThan next.target
        .again { next with client := client, target := target }
  | .answered status leader body =>
      let res := { res with status := status, body := body, err := none }
      if 200 ≤ status ∧ status < 300 then
        .returned { res with outcome := .accepted } (writing.client.setLeader writing.target)
      else if status = 421 then
        if leader ≠ [] then
          .again { writing with
            client := writing.client.setLeader leader, target := leader, res := res }
        else
          let (target, client) := writing.client.clearLeader.otherThan writing.target
          .again { writing with client := client, target := target, res := res }
      else if status = 503 then
        let next := { writing with
          client := writing.client.clearLeader, res := res, mayHaveCommitted := true }
        if round.cancelled then .done next else .again next
      else .returned { res with outcome := .rejected } writing.client

def drive (rounds : Nat → Round) : Nat → Nat → Writing → Result × Client
  | 0, _, writing => (writing.finish, writing.client)
  | left + 1, number, writing =>
      match writing.attempt number (rounds number) with
      | .again next => drive rounds left (number + 1) next
      | .done next => (next.finish, next.client)
      | .returned res client => (res, client)

/-- What a round leaves behind, by how it ends.  A refusal ends the write at once,
whatever the rounds before it were. -/
def Leaves (writing : Writing) (number : Nat) (round : Round) : Turn → Prop
  | .again next | .done next =>
      next.res.attempts = number ∧
        next.mayHaveCommitted = (writing.mayHaveCommitted || round.reply.mayCommit)
  | .returned res _ =>
      res.attempts = number ∧
        (res.outcome = .accepted ∧ round.reply.isSuccess ∨
          res.outcome = .rejected ∧ round.reply.isRefusal)

theorem attempt_leaves (writing : Writing) (number : Nat) (round : Round) :
    writing.Leaves number round (writing.attempt number round) := by
  unfold attempt
  cases hreply : round.reply with
  | dialFailed err =>
      dsimp only
      split <;> simp [Leaves, hreply, Reply.mayCommit]
  | lost err =>
      dsimp only
      split <;> simp [Leaves, hreply, Reply.mayCommit]
  | answered status leader body =>
      dsimp only
      split
      next hsuccess => simp [Leaves, hreply, Reply.isSuccess, hsuccess]
      next hother =>
          split
          next hredirect =>
              subst hredirect
              split <;> simp [Leaves, hreply, Reply.mayCommit]
          next hanswer =>
              split
              next hunavailable =>
                  subst hunavailable
                  split <;> simp [Leaves, hreply, Reply.mayCommit]
              next hrefused =>
                  have hrefusal : round.reply.isRefusal = true := by
                    rw [hreply]
                    simp only [Reply.isRefusal, Bool.and_eq_true, Bool.not_eq_true',
                      Bool.and_eq_false_iff, decide_eq_false_iff_not, bne_iff_ne]
                    exact ⟨⟨not_and_or.mp hother, hanswer⟩, hrefused⟩
                  exact ⟨rfl, .inr ⟨rfl, hrefusal⟩⟩

theorem continues_of_attempt {writing next : Writing} {number : Nat} {round : Round}
    (hturn : writing.attempt number round = .again next ∨
      writing.attempt number round = .done next) :
    round.reply.continues = true := by
  cases hreply : round.reply with
  | dialFailed err | lost err => rfl
  | answered status leader body =>
      by_contra hends
      unfold attempt at hturn
      rw [hreply] at hturn
      dsimp only at hturn
      have hended : ¬ status = 421 ∧ ¬ status = 503 := by
        constructor <;> rintro rfl <;> exact hends rfl
      rw [if_neg hended.1, if_neg hended.2] at hturn
      split at hturn <;> simp at hturn

theorem isAgain_attempt (writing : Writing) (number : Nat) (round : Round) :
    (writing.attempt number round).isAgain = round.continues := by
  unfold attempt Round.continues
  cases round.reply with
  | dialFailed err | lost err => cases round.cancelled <;> rfl
  | answered status leader body =>
      dsimp only
      split_ifs with hsuccess hredirect hnamed hunavailable hcancelled
      · simp [Turn.isAgain, Reply.continues, Reply.isSuccess, hsuccess]
      · simp [Turn.isAgain, Reply.continues, Reply.isSuccess, Reply.isRefusal, Reply.isRedirect,
          hredirect]
      · simp [Turn.isAgain, Reply.continues, Reply.isSuccess, Reply.isRefusal, Reply.isRedirect,
          hredirect]
      · simp [Turn.isAgain, Reply.isRedirect, hunavailable, hcancelled]
      · simp [Turn.isAgain, Reply.continues, Reply.isSuccess, Reply.isRefusal, hunavailable,
          hcancelled]
      · simp only [Turn.isAgain, Reply.isRedirect, Reply.continues, Reply.isRefusal,
          Reply.isSuccess]
        simp_all

/-- `mayHaveCommitted` says whether one of the rounds before this one may have. -/
structure Tracks (rounds : Nat → Round) (number : Nat) (writing : Writing) : Prop where
  attempts : writing.res.attempts + 1 = number
  mayHaveCommitted : writing.mayHaveCommitted = true ↔
    ∃ earlier, 1 ≤ earlier ∧ earlier < number ∧ (rounds earlier).reply.mayCommit

theorem Tracks.succ {rounds : Nat → Round} {number : Nat} {writing next : Writing}
    (htracks : Tracks rounds number writing)
    (hattempts : next.res.attempts = number)
    (hmay : next.mayHaveCommitted =
      (writing.mayHaveCommitted || (rounds number).reply.mayCommit)) :
    Tracks rounds (number + 1) next where
  attempts := by rw [hattempts]
  mayHaveCommitted := by
    rw [hmay, Bool.or_eq_true, htracks.mayHaveCommitted]
    constructor
    · rintro (⟨earlier, hfirst, hlt, hcommit⟩ | hcommit)
      · exact ⟨earlier, hfirst, Nat.lt_succ_of_lt hlt, hcommit⟩
      · exact ⟨number, by have := htracks.attempts; omega, Nat.lt_succ_self _, hcommit⟩
    · rintro ⟨earlier, hfirst, hlt, hcommit⟩
      rcases Nat.lt_succ_iff_lt_or_eq.mp hlt with hlt | rfl
      · exact .inl ⟨earlier, hfirst, hlt, hcommit⟩
      · exact .inr hcommit

/-- Each verdict has its reason in the rounds that were made. -/
structure Justified (rounds : Nat → Round) (res : Result) : Prop where
  accepted : res.outcome = .accepted →
    1 ≤ res.attempts ∧ (rounds res.attempts).reply.isSuccess
  rejected : res.outcome = .rejected →
    (rounds res.attempts).reply.isRefusal ∨
      ∀ number, 1 ≤ number → number ≤ res.attempts →
        (rounds number).reply.mayCommit = false

theorem attempts_finish (writing : Writing) :
    writing.finish.attempts = writing.res.attempts := by
  unfold finish
  dsimp only
  split <;> rfl

theorem outcome_finish (writing : Writing) :
    writing.finish.outcome = if writing.mayHaveCommitted then .ambiguous else .rejected := by
  unfold finish
  dsimp only
  split <;> rfl

theorem Tracks.finish_justified {rounds : Nat → Round} {number : Nat} {writing : Writing}
    (htracks : Tracks rounds number writing) : Justified rounds writing.finish := by
  have hnumber := htracks.attempts
  constructor
  · intro haccepted
    rw [outcome_finish] at haccepted
    split at haccepted <;> contradiction
  · intro hrejected
    right
    intro earlier hfirst hmade
    rw [attempts_finish] at hmade
    rw [outcome_finish] at hrejected
    by_contra hcommit
    rw [Bool.not_eq_false] at hcommit
    have hmay := htracks.mayHaveCommitted.mpr ⟨earlier, hfirst, by omega, hcommit⟩
    rw [if_pos hmay] at hrejected
    contradiction

theorem drive_justified {rounds : Nat → Round} {left number : Nat} {writing : Writing}
    (htracks : Tracks rounds number writing) :
    Justified rounds (drive rounds left number writing).1 := by
  induction left generalizing number writing with
  | zero => exact htracks.finish_justified
  | succ left ih =>
      have hleaves := attempt_leaves writing number (rounds number)
      rw [drive]
      split
      next next hturn =>
          rw [hturn] at hleaves
          exact ih (htracks.succ hleaves.1 hleaves.2)
      next next hturn =>
          rw [hturn] at hleaves
          exact (htracks.succ hleaves.1 hleaves.2).finish_justified
      next res client hturn =>
          rw [hturn] at hleaves
          obtain ⟨rfl, hanswered⟩ := hleaves
          have hmade : 1 ≤ res.attempts := by
            have hnumber := htracks.attempts
            omega
          rcases hanswered with ⟨houtcome, hsuccess⟩ | ⟨houtcome, hrefusal⟩
          · exact ⟨fun _ => ⟨hmade, hsuccess⟩, fun hrejected => by simp_all⟩
          · exact ⟨fun haccepted => by simp_all, fun _ => .inl hrefusal⟩

/-- Where a write that has `left` rounds from `number` on ends. -/
structure Ends (rounds : Nat → Round) (left number : Nat) (res : Result) : Prop where
  made : number ≤ res.attempts + 1
  started : 0 < left → number ≤ res.attempts
  within : res.attempts < number + left
  going : ∀ earlier, number ≤ earlier → earlier < res.attempts →
    (rounds earlier).continues = true
  ended : number ≤ res.attempts → (rounds res.attempts).continues = true →
    res.attempts + 1 = number + left
  refused : number ≤ res.attempts → (rounds res.attempts).reply.isRefusal = true →
    res.outcome = .rejected

theorem Ends.succ {rounds : Nat → Round} {left number : Nat} {res : Result}
    (hends : Ends rounds left (number + 1) res)
    (hcontinues : (rounds number).continues = true) :
    Ends rounds (left + 1) number res where
  made := Nat.le_of_succ_le hends.made
  started _ := Nat.le_of_succ_le_succ hends.made
  within := by
    have hwithin := hends.within
    omega
  going := by
    intro earlier hfirst hlt
    rcases Nat.eq_or_lt_of_le hfirst with rfl | hlater
    · exact hcontinues
    · exact hends.going earlier hlater hlt
  ended := by
    intro hmade hlast
    rcases Nat.eq_or_lt_of_le hmade with hsame | hlater
    · have hstarted := hends.started
      omega
    · have hended := hends.ended hlater hlast
      omega
  refused := by
    intro hmade hrefusal
    rcases Nat.eq_or_lt_of_le hmade with hsame | hlater
    · rw [← hsame] at hrefusal
      simp [Round.continues, Reply.continues, hrefusal] at hcontinues
    · exact hends.refused hlater hrefusal

theorem ends_here {rounds : Nat → Round} {left : Nat} {res : Result}
    (hcontinues : (rounds res.attempts).continues = false)
    (hrefused : (rounds res.attempts).reply.isRefusal = true → res.outcome = .rejected) :
    Ends rounds (left + 1) res.attempts res where
  made := Nat.le_succ _
  started _ := Nat.le_refl _
  within := by omega
  going := by omega
  ended := by
    intro _ hlast
    rw [hcontinues] at hlast
    contradiction
  refused _ := hrefused

theorem drive_ends {rounds : Nat → Round} {left number : Nat} {writing : Writing}
    (hattempts : writing.res.attempts + 1 = number) :
    Ends rounds left number (drive rounds left number writing).1 := by
  induction left generalizing number writing with
  | zero =>
      have hmade := attempts_finish writing
      rw [drive]
      dsimp only
      constructor <;> omega
  | succ left ih =>
      have hleaves := attempt_leaves writing number (rounds number)
      have hagain := isAgain_attempt writing number (rounds number)
      rw [drive]
      split
      next next hturn =>
          rw [hturn] at hleaves hagain
          have hrest := ih (by rw [hleaves.1])
          exact hrest.succ hagain.symm
      next next hturn =>
          rw [hturn] at hleaves hagain
          have hcontinues := continues_of_attempt (.inr hturn)
          obtain rfl : next.finish.attempts = number := by rw [attempts_finish, hleaves.1]
          refine ends_here hagain.symm fun hrefusal => ?_
          simp [Reply.continues, hrefusal] at hcontinues
      next res client hturn =>
          rw [hturn] at hleaves hagain
          obtain ⟨rfl, hanswered⟩ := hleaves
          refine ends_here hagain.symm fun hrefusal => ?_
          rcases hanswered with ⟨-, hsuccess⟩ | ⟨houtcome, -⟩
          · rw [Reply.not_isSuccess_of_isRefusal hrefusal] at hsuccess
            contradiction
          · exact houtcome

end Writing

namespace Client

def firstTarget (client : Client) : GoString × Client :=
  if client.leaderURL = [] then client.draw else (client.leaderURL, client)

def opening (client : Client) : Writing where
  client := client.firstTarget.2
  target := client.firstTarget.1
  res :=
    { outcome := .ambiguous, status := 0, attempts := 0, node := [], body := [], err := none }
  mayHaveCommitted := false

/-- `Write`, when attempt `n` goes as `rounds n` says. -/
def write (client : Client) (rounds : Nat → Round) : Result × Client :=
  Writing.drive rounds client.maxAttempts 1 client.opening

/-- A refusal ends the rounds, and one of the rounds before it may have committed. -/
def RefusedLate (rounds : Nat → Round) (maxAttempts : Nat) : Prop :=
  ∃ last ≤ maxAttempts, (rounds last).reply.isRefusal ∧
    (∀ number, 1 ≤ number → number < last → (rounds number).continues) ∧
    ∃ earlier, 1 ≤ earlier ∧ earlier < last ∧ (rounds earlier).reply.mayCommit

theorem write_justified (client : Client) (rounds : Nat → Round) :
    Writing.Justified rounds (client.write rounds).1 := by
  apply Writing.drive_justified
  exact {
    attempts := rfl
    mayHaveCommitted := by
      constructor
      · intro hmay
        contradiction
      · rintro ⟨earlier, hfirst, hlt, _⟩
        omega }

theorem write_ends (client : Client) (rounds : Nat → Round) :
    Writing.Ends rounds client.maxAttempts 1 (client.write rounds).1 :=
  Writing.drive_ends rfl

theorem write_refused {client : Client} {rounds : Nat → Round} {last : Nat}
    (hfirst : 1 ≤ last) (hlast : last ≤ client.maxAttempts)
    (hrefusal : (rounds last).reply.isRefusal = true)
    (hgoing : ∀ number, 1 ≤ number → number < last → (rounds number).continues = true) :
    (client.write rounds).1.attempts = last ∧
      (client.write rounds).1.outcome = .rejected := by
  have hends := client.write_ends rounds
  have hstarted := hends.started client.maxAttempts_pos
  have hstops : (rounds last).continues = false := by
    simp [Round.continues, Reply.continues, hrefusal]
  have hsame : (client.write rounds).1.attempts = last := by
    rcases Nat.lt_trichotomy (client.write rounds).1.attempts last with hlt | hsame | hgt
    · have hended := hends.ended hstarted (hgoing _ hstarted hlt)
      omega
    · exact hsame
    · have hcontinues := hends.going last hfirst hgt
      rw [hstops] at hcontinues
      contradiction
  exact ⟨hsame, hends.refused hstarted (by rw [hsame]; exact hrefusal)⟩

/-- An accepted write was answered with a success and a rejected one cannot have committed,
exactly when no refusal comes after a 503 or a lost answer. -/
theorem verdict_is_sound_iff_not_refused_late (client : Client) (rounds : Nat → Round) :
    (((client.write rounds).1.outcome = .accepted →
        ∃ number, 1 ≤ number ∧ number ≤ (client.write rounds).1.attempts ∧
          (rounds number).reply.isSuccess) ∧
      ((client.write rounds).1.outcome = .rejected →
        ∀ number, 1 ≤ number → number ≤ (client.write rounds).1.attempts →
          (rounds number).reply.mayCommit = false)) ↔
      ¬ RefusedLate rounds client.maxAttempts := by
  have hjustified := client.write_justified rounds
  have hends := client.write_ends rounds
  have hwithin := hends.within
  constructor
  · rintro ⟨-, hsound⟩ ⟨last, hlast, hrefusal, hgoing, earlier, hfirst, hlt, hcommit⟩
    obtain ⟨hattempts, hrejected⟩ := write_refused (by omega) hlast hrefusal hgoing
    rw [hsound hrejected earlier hfirst (by omega)] at hcommit
    contradiction
  · intro hnotLate
    constructor
    · intro haccepted
      obtain ⟨hmade, hsuccess⟩ := hjustified.accepted haccepted
      exact ⟨_, hmade, Nat.le_refl _, hsuccess⟩
    · intro hrejected number hfirst hmade
      rcases hjustified.rejected hrejected with hrefusal | hnone
      · by_contra hcommit
        rw [Bool.not_eq_false] at hcommit
        rcases Nat.lt_or_eq_of_le hmade with hearlier | rfl
        · exact hnotLate
            ⟨_, by omega, hrefusal, hends.going, number, hfirst, hearlier, hcommit⟩
        · exact (Reply.not_mayCommit_of_isRefusal hrefusal) hcommit
      · exact hnone number hfirst hmade

def single : Client where
  nodes := [lit "http://dist-mq-0:8080"]
  maxAttempts := 5
  leader := none
  next := 0
  nodes_ne_nil := List.cons_ne_nil _ _
  maxAttempts_pos := by decide

/-- The queue is created, the answer is lost, and the second attempt finds the queue. -/
def lostThenConflict : Nat → Round
  | 1 => ⟨.lost (lit "EOF"), false⟩
  | _ => ⟨.answered 409 [] (lit "queue already exists\n"), false⟩

theorem conflict_after_lost_answer_is_rejected :
    (single.write lostThenConflict).1 =
        { outcome := .rejected
          status := 409
          attempts := 2
          node := lit "http://dist-mq-0:8080"
          body := lit "queue already exists\n"
          err := none } ∧
      (lostThenConflict 1).reply.mayCommit = true := by
  decide

/-- The node restarts, then points at a leader, which does not know the queue. -/
def restartThenNotFound : Nat → Round
  | 1 => ⟨.dialFailed (lit "connection refused"), false⟩
  | 2 => ⟨.answered 421 (lit "http://dist-mq-1:8080") [], false⟩
  | _ => ⟨.answered 404 [] (lit "queue not found\n"), false⟩

theorem prompt_refusal_is_sound :
    (single.write restartThenNotFound).1.outcome = .rejected ∧
      ∀ number, 1 ≤ number → number ≤ 3 →
        (restartThenNotFound number).reply.mayCommit = false := by
  have hattempts : (single.write restartThenNotFound).1.attempts = 3 := by decide
  have hrejected : (single.write restartThenNotFound).1.outcome = .rejected := by decide
  have hprompt : ¬ RefusedLate restartThenNotFound single.maxAttempts := by
    rintro ⟨last, _, _, _, earlier, hfirst, _, hcommit⟩
    match earlier, hfirst, hcommit with
    | 1, _, hcommit | 2, _, hcommit | _ + 3, _, hcommit => contradiction
  have hsound :=
    ((verdict_is_sound_iff_not_refused_late single restartThenNotFound).mpr hprompt).2 hrejected
  rw [hattempts] at hsound
  exact ⟨hrejected, hsound⟩

end Client

end SimonMQ.Dist
