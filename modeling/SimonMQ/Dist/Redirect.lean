import SimonMQ.Dist.Verdict

namespace SimonMQ.Dist

open SimonMQ.Go

/-! How a write finds the leader: by the redirect of a node that can name it, and
otherwise by sweeping the nodes. -/

namespace Client

def drawn (client : Client) (counter : Nat) : GoString :=
  ({ client with next := counter } : Client).draw.1

theorem drawn_congr {client other : Client} (hnodes : client.nodes = other.nodes)
    (counter : Nat) : client.drawn counter = other.drawn counter := by
  simp [drawn, draw, hnodes]

def Due (client : Client) (url : GoString) (count : Nat) : Prop :=
  ∃ ahead, ahead < count ∧ client.drawn (client.next + ahead) = url

theorem due_of_mem {client : Client} {url : GoString} (hmember : url ∈ client.nodes) :
    client.Due url client.nodes.length := by
  obtain ⟨index, hindex, hget⟩ := List.mem_iff_getElem.mp hmember
  have hpos := Nat.zero_lt_of_lt hindex
  have hwrap := Nat.mod_lt client.next hpos
  refine ⟨(index + (client.nodes.length - client.next % client.nodes.length)) %
    client.nodes.length, Nat.mod_lt _ hpos, ?_⟩
  have hturn : client.next + (index + (client.nodes.length -
      client.next % client.nodes.length)) =
      index + client.nodes.length * (client.next / client.nodes.length + 1) := by
    have hsplit := Nat.div_add_mod client.next client.nodes.length
    rw [Nat.mul_succ]
    omega
  have hindexed : (client.next + (index + (client.nodes.length -
      client.next % client.nodes.length)) % client.nodes.length) % client.nodes.length =
      index := by
    rw [Nat.add_mod_mod, hturn, Nat.add_mul_mod_self_left, Nat.mod_eq_of_lt hindex]
  simp only [drawn, draw, hindexed, List.get_eq_getElem]
  exact hget

theorem Due.draw {client : Client} {url : GoString} {count : Nat}
    (hdue : client.Due url (count + 1)) :
    client.draw.1 = url ∨ client.draw.2.Due url count := by
  obtain ⟨ahead, hahead, hdrawn⟩ := hdue
  cases ahead with
  | zero => exact .inl hdrawn
  | succ ahead =>
      refine .inr ⟨ahead, Nat.lt_of_succ_lt_succ hahead, ?_⟩
      rw [← hdrawn, ← Nat.succ_eq_add_one ahead, Nat.add_succ, ← Nat.succ_add]
      rfl

theorem drawOther_succ (client : Client) (current : GoString) (tries : Nat) :
    client.drawOther current (tries + 1) =
      if client.draw.1 ≠ current then client.draw
      else client.draw.2.drawOther current tries := rfl

theorem Due.drawOther {client : Client} {url current : GoString} (hother : current ≠ url)
    {count tries : Nat} (hdue : client.Due url count) (hcount : count ≤ tries) :
    (client.drawOther current tries).1 = url ∨
      ∃ fewer, fewer < count ∧ (client.drawOther current tries).2.Due url fewer := by
  induction tries generalizing client count with
  | zero =>
      obtain ⟨ahead, hahead, -⟩ := hdue
      omega
  | succ tries ih =>
      cases count with
      | zero =>
          obtain ⟨ahead, hahead, -⟩ := hdue
          omega
      | succ count =>
          rw [drawOther_succ]
          rcases hdue.draw with hfound | hnearer
          · rw [hfound, if_pos (Ne.symm hother)]
            exact .inl hfound
          · split
            · exact .inr ⟨count, Nat.lt_succ_self _, hnearer⟩
            · rcases ih hnearer (Nat.le_of_succ_le_succ hcount) with
                hfound | ⟨fewer, hfewer, hafter⟩
              · exact .inl hfound
              · exact .inr ⟨fewer, Nat.lt_succ_of_lt hfewer, hafter⟩

theorem nodes_drawOther (client : Client) (current : GoString) (tries : Nat) :
    (client.drawOther current tries).2.nodes = client.nodes := by
  induction tries generalizing client with
  | zero => rfl
  | succ tries ih =>
      rw [drawOther_succ]
      split
      · rfl
      · exact ih client.draw.2

theorem nodes_otherThan (client : Client) (current : GoString) :
    (client.otherThan current).2.nodes = client.nodes := by
  unfold otherThan
  split
  · rfl
  · exact nodes_drawOther client current client.nodes.length

theorem Due.otherThan {client : Client} {url current : GoString} (hother : current ≠ url)
    (hmember : url ∈ client.nodes) {count : Nat} (hdue : client.Due url count)
    (hcount : count ≤ client.nodes.length) :
    (client.otherThan current).1 = url ∨
      ∃ fewer, fewer < count ∧ (client.otherThan current).2.Due url fewer := by
  unfold Client.otherThan
  split
  · rename_i hsingle
    obtain ⟨only, honly⟩ := List.length_eq_one_iff.mp hsingle
    simp only [honly, List.mem_singleton] at hmember ⊢
    exact .inl hmember.symm
  · exact hdue.drawOther hother hcount

end Client

/-- One node leads, and every other one knows it: it is down, or `requireLeader` answers
with the configured URL of the leader, if it has one. -/
structure Settled (serve : GoString → Reply) (leader leaderID : GoString)
    (peerHTTP : GoString → GoMap GoString) : Prop where
  ends : (serve leader).continues = false
  others : ∀ url, url ≠ leader → (∃ err, serve url = .dialFailed err) ∨
    serve url = requireLeader (peerHTTP url) (some leaderID)
  named : ∀ url found, (peerHTTP url).lookup leaderID = some found → found = leader

namespace Writing

/-- Every attempt is answered by the node it is sent to, and no pause is cut short. -/
def Served (serve : GoString → Reply) (rounds : Nat → Round) : Nat → Nat → Writing → Prop
  | 0, _, _ => True
  | left + 1, number, writing =>
      rounds number = ⟨serve writing.target, false⟩ ∧
        match writing.attempt number (rounds number) with
        | .again next => Served serve rounds left (number + 1) next
        | .done _ | .returned _ _ => True

instance decidableServed {serve : GoString → Reply} {rounds : Nat → Round} :
    ∀ left number writing, Decidable (Served serve rounds left number writing)
  | 0, _, _ => isTrue trivial
  | left + 1, number, writing =>
      match hturn : writing.attempt number (rounds number) with
      | .again next =>
          have : Decidable (Served serve rounds left (number + 1) next) :=
            decidableServed left (number + 1) next
          decidable_of_iff (rounds number = ⟨serve writing.target, false⟩ ∧
            Served serve rounds left (number + 1) next) (by simp [Served, hturn])
      | .done next | .returned res client =>
          decidable_of_iff (rounds number = ⟨serve writing.target, false⟩)
            (by simp [Served, hturn])

theorem node_of_returned {writing : Writing} {number : Nat} {round : Round} {res : Result}
    {client : Client} (hturn : writing.attempt number round = .returned res client) :
    res.node = writing.target := by
  unfold attempt at hturn
  cases hreply : round.reply with
  | dialFailed err | lost err =>
      rw [hreply] at hturn
      dsimp only at hturn
      split at hturn <;> contradiction
  | answered status leader body =>
      rw [hreply] at hturn
      dsimp only at hturn
      split at hturn
      · cases hturn
        rfl
      · split at hturn
        · split at hturn <;> contradiction
        · split at hturn
          · split at hturn <;> contradiction
          · cases hturn
            rfl

structure EndsAt (res : Result) (url : GoString) (reply : Reply) : Prop where
  node : res.node = url
  outcome : res.outcome = if reply.isSuccess then .accepted else .rejected

variable {serve : GoString → Reply} {rounds : Nat → Round} {left number : Nat}
  {writing : Writing}

theorem drive_of_ends (hserved : Served serve rounds (left + 1) number writing)
    (hends : (serve writing.target).continues = false) :
    EndsAt (drive rounds (left + 1) number writing).1 writing.target (serve writing.target) ∧
      (drive rounds (left + 1) number writing).1.attempts = number := by
  obtain ⟨hround, -⟩ := hserved
  have hleaves := attempt_leaves writing number (rounds number)
  rw [drive]
  cases hturn : writing.attempt number (rounds number) with
  | again next =>
      have hcontinues := continues_of_attempt (.inl hturn)
      rw [hround, hends] at hcontinues
      contradiction
  | done next =>
      have hcontinues := continues_of_attempt (.inr hturn)
      rw [hround, hends] at hcontinues
      contradiction
  | returned res client =>
      rw [hturn, hround] at hleaves
      refine ⟨⟨node_of_returned hturn, ?_⟩, hleaves.1⟩
      rcases hleaves.2 with ⟨houtcome, hsuccess⟩ | ⟨houtcome, hrefusal⟩
      · rw [houtcome, if_pos hsuccess]
      · rw [houtcome, Reply.not_isSuccess_of_isRefusal hrefusal]
        rfl

structure Sweeps (writing next : Writing) (client : Client) : Prop where
  nodes : client.nodes = writing.client.nodes
  counter : client.next = writing.client.next
  cache : next.client = (client.otherThan writing.target).2
  moved : next.target = (client.otherThan writing.target).1

theorem attempt_dialFailed (writing : Writing) (number : Nat) (err : GoString) :
    ∃ next client, writing.attempt number ⟨.dialFailed err, false⟩ = .again next ∧
      writing.Sweeps next client := by
  by_cases hcached : writing.target = writing.client.leaderURL
  · refine ⟨_, writing.client.clearLeader, rfl, ?_⟩
    rw [if_pos hcached]
    exact ⟨rfl, rfl, rfl, rfl⟩
  · refine ⟨_, writing.client, rfl, ?_⟩
    rw [if_neg hcached]
    exact ⟨rfl, rfl, rfl, rfl⟩

theorem attempt_unnamed (writing : Writing) (number : Nat) (body : Bytes) :
    ∃ next client, writing.attempt number ⟨.answered 421 [] body, false⟩ = .again next ∧
      writing.Sweeps next client :=
  ⟨_, writing.client.clearLeader, rfl, rfl, rfl, rfl, rfl⟩

theorem attempt_named (writing : Writing) (number : Nat) {leader : GoString}
    (hnamed : leader ≠ []) (body : Bytes) :
    ∃ next, writing.attempt number ⟨.answered 421 leader body, false⟩ = .again next ∧
      next.target = leader ∧ next.client.nodes = writing.client.nodes :=
  ⟨_, if_pos hnamed, rfl, rfl⟩

variable {leader leaderID : GoString} {peerHTTP : GoString → GoMap GoString}

theorem attempt_settled (hsettled : Settled serve leader leaderID peerHTTP)
    (hother : writing.target ≠ leader) (hmember : leader ∈ writing.client.nodes) {count : Nat}
    (hdue : writing.client.Due leader count) (hcount : count ≤ writing.client.nodes.length)
    (number : Nat) :
    ∃ next, writing.attempt number ⟨serve writing.target, false⟩ = .again next ∧
      next.client.nodes = writing.client.nodes ∧
      (next.target = leader ∨ ∃ fewer, fewer < count ∧ next.client.Due leader fewer) := by
  have hsweep : ∀ {next : Writing} {client : Client}, writing.Sweeps next client →
      next.client.nodes = writing.client.nodes ∧
      (next.target = leader ∨ ∃ fewer, fewer < count ∧ next.client.Due leader fewer) := by
    intro next client hsweeps
    rw [hsweeps.cache, hsweeps.moved, Client.nodes_otherThan, hsweeps.nodes]
    refine ⟨rfl, Client.Due.otherThan hother (hsweeps.nodes ▸ hmember) ?_
      (hsweeps.nodes ▸ hcount)⟩
    obtain ⟨ahead, hahead, hdrawn⟩ := hdue
    refine ⟨ahead, hahead, ?_⟩
    rw [← hdrawn, hsweeps.counter]
    exact Client.drawn_congr hsweeps.nodes _
  rcases hsettled.others writing.target hother with ⟨err, hdown⟩ | hturned
  · obtain ⟨next, client, hturn, hsweeps⟩ := attempt_dialFailed writing number err
    exact ⟨next, hdown ▸ hturn, hsweep hsweeps⟩
  · rw [hturned, requireLeader]
    by_cases hempty : ((peerHTTP writing.target).lookup leaderID).getD [] = []
    · rw [hempty]
      obtain ⟨next, client, hturn, hsweeps⟩ :=
        attempt_unnamed writing number (lit "not leader\n")
      exact ⟨next, hturn, hsweep hsweeps⟩
    · obtain ⟨next, hturn, htarget, hnodes⟩ :=
        attempt_named writing number hempty (lit "not leader\n")
      refine ⟨next, hturn, hnodes, .inl ?_⟩
      cases hlookup : (peerHTTP writing.target).lookup leaderID with
      | none => simp [hlookup] at hempty
      | some found =>
          rw [htarget, hlookup]
          exact hsettled.named _ found hlookup

theorem served_succ {next : Writing} (hserved : Served serve rounds (left + 1) number writing)
    (hturn : writing.attempt number ⟨serve writing.target, false⟩ = .again next) :
    Served serve rounds left (number + 1) next ∧
      drive rounds (left + 1) number writing = drive rounds left (number + 1) next := by
  obtain ⟨hround, hrest⟩ := hserved
  rw [hround, hturn] at hrest
  refine ⟨hrest, ?_⟩
  rw [drive, hround, hturn]

theorem drive_settled (hsettled : Settled serve leader leaderID peerHTTP)
    (hserved : Served serve rounds left number writing)
    (hmember : leader ∈ writing.client.nodes) {count : Nat}
    (hdue : writing.client.Due leader count) (hcount : count ≤ writing.client.nodes.length)
    (hleft : count < left) :
    EndsAt (drive rounds left number writing).1 leader (serve leader) ∧
      (drive rounds left number writing).1.attempts ≤ number + count := by
  induction left generalizing number writing count with
  | zero => omega
  | succ left ih =>
      by_cases htarget : writing.target = leader
      · obtain ⟨hends, hattempts⟩ := drive_of_ends hserved (htarget ▸ hsettled.ends)
        exact ⟨htarget ▸ hends, by omega⟩
      · obtain ⟨next, hturn, hnodes, hnext⟩ :=
          attempt_settled hsettled htarget hmember hdue hcount number
        obtain ⟨hrest, hdrive⟩ := served_succ hserved hturn
        rw [hdrive]
        rcases hnext with hreached | ⟨fewer, hfewer, hnearer⟩
        · obtain ⟨ahead, hahead, -⟩ := hdue
          obtain ⟨left, rfl⟩ := Nat.exists_eq_add_of_le' (show 1 ≤ left by omega)
          obtain ⟨hends, hattempts⟩ := drive_of_ends hrest (hreached ▸ hsettled.ends)
          exact ⟨hreached ▸ hends, by omega⟩
        · obtain ⟨hends, hattempts⟩ := ih hrest (hnodes ▸ hmember) hnearer
            (by rw [hnodes]; omega) (by omega)
          exact ⟨hends, by omega⟩

theorem drive_named (hends : (serve leader).continues = false) (hleader : leader ≠ [])
    (hnamed : ∀ url, url ≠ leader → ∃ body, serve url = .answered 421 leader body)
    (hserved : Served serve rounds (left + 1 + 1) number writing) :
    (drive rounds (left + 1 + 1) number writing).1.attempts ≤ number + 1 := by
  by_cases htarget : writing.target = leader
  · obtain ⟨-, hattempts⟩ := drive_of_ends hserved (htarget ▸ hends)
    omega
  · obtain ⟨body, hbody⟩ := hnamed writing.target htarget
    obtain ⟨next, hturn, hreached, -⟩ := attempt_named writing number hleader body
    obtain ⟨hrest, hdrive⟩ := served_succ hserved (hbody ▸ hturn)
    obtain ⟨-, hattempts⟩ := drive_of_ends hrest (hreached ▸ hends)
    rw [hdrive]
    omega

end Writing

namespace Client

theorem nodes_firstTarget (client : Client) : client.firstTarget.2.nodes = client.nodes := by
  unfold firstTarget
  split <;> rfl

/-- While one node leads and the others know it, a write ends at the leader, whatever the
client had cached: after at most one attempt more than there are nodes, and after two if
every other node is up and can name the leader. -/
theorem write_reaches_stable_leader {client : Client} {serve : GoString → Reply}
    {leader leaderID : GoString} {peerHTTP : GoString → GoMap GoString} {rounds : Nat → Round}
    (hmember : leader ∈ client.nodes) (hsettled : Settled serve leader leaderID peerHTTP)
    (hserved : Writing.Served serve rounds client.maxAttempts 1 client.opening)
    (hbudget : client.nodes.length < client.maxAttempts) :
    Writing.EndsAt (client.write rounds).1 leader (serve leader) ∧
      (client.write rounds).1.attempts ≤ client.nodes.length + 1 ∧
      ((leader ≠ [] ∧
          ∀ url, url ≠ leader → ∃ body, serve url = .answered 421 leader body) →
        (client.write rounds).1.attempts ≤ 2) := by
  have hnodes : client.opening.client.nodes = client.nodes := client.nodes_firstTarget
  have hdue : client.opening.client.Due leader client.nodes.length := by
    have hopening : client.opening.client.Due leader client.opening.client.nodes.length :=
      due_of_mem (hnodes ▸ hmember)
    rwa [hnodes] at hopening
  rw [write]
  obtain ⟨hends, hattempts⟩ := Writing.drive_settled hsettled hserved (hnodes ▸ hmember) hdue
    (Nat.le_of_eq (congrArg List.length hnodes.symm)) hbudget
  refine ⟨hends, by omega, ?_⟩
  rintro ⟨hleader, hnamed⟩
  have hpos : 0 < client.nodes.length := List.length_pos_of_mem hmember
  obtain ⟨left, hleft⟩ := Nat.exists_eq_add_of_le' (show 2 ≤ client.maxAttempts by omega)
  rw [hleft] at hserved ⊢
  exact Writing.drive_named hsettled.ends hleader hnamed hserved

/-! The first of three nodes is down, the second cannot name the leader, which is the
third. -/

def trio : Client :=
  { single with
    nodes := [lit "http://dist-mq-0:8080", lit "http://dist-mq-1:8080",
      lit "http://dist-mq-2:8080"]
    nodes_ne_nil := List.cons_ne_nil _ _ }

def thirdLeads (url : GoString) : Reply :=
  if url = lit "http://dist-mq-2:8080" then .answered 201 [] []
  else if url = lit "http://dist-mq-0:8080" then .dialFailed (lit "connection refused")
  else requireLeader ∅ (some (lit "node-2"))

def sweepRounds : Nat → Round
  | 1 => ⟨.dialFailed (lit "connection refused"), false⟩
  | 2 => ⟨.answered 421 [] (lit "not leader\n"), false⟩
  | _ => ⟨.answered 201 [] [], false⟩

theorem sweep_reaches_third_node :
    Writing.EndsAt (trio.write sweepRounds).1 (lit "http://dist-mq-2:8080")
        (.answered 201 [] []) ∧
      (trio.write sweepRounds).1.attempts ≤ 4 := by
  have hsettled : Settled thirdLeads (lit "http://dist-mq-2:8080") (lit "node-2")
      fun _ => ∅ := {
    ends := by decide +kernel
    others := by
      intro url hother
      unfold thirdLeads
      rw [if_neg hother]
      split
      · exact .inl ⟨_, rfl⟩
      · exact .inr rfl
    named := fun _ _ hfound => by simp at hfound }
  have hserved : Writing.Served thirdLeads sweepRounds trio.maxAttempts 1 trio.opening := by
    decide +kernel
  have hmember : lit "http://dist-mq-2:8080" ∈ trio.nodes := by decide +kernel
  obtain ⟨hends, hattempts, -⟩ :=
    write_reaches_stable_leader hmember hsettled hserved (by decide)
  exact ⟨hends, hattempts⟩

end Client

end SimonMQ.Dist
