import SimonMQ.Dist.Sink

namespace SimonMQ.Dist.Verify

open SimonMQ.Go

/-! The verdict on an end-to-end run: what the publishers were told, held against what
the sink has on record. -/

structure Publication where
  token : GoString
  outcome : Outcome
  deriving DecidableEq, Repr

structure Miss where
  subscriber : GoString
  token : GoString
  deriving DecidableEq, Repr

structure Report where
  accepted : Nat
  ambiguous : Nat
  rejected : Nat
  missing : List Miss
  phantom : List GoString
  rejectedButDelivered : List GoString
  duplicates : Nat
  ambiguousDelivered : Nat
  deriving DecidableEq, Repr

/-- The counters and the sets of the first loop, one of each for every outcome. -/
structure Published where
  count : Outcome → Nat := fun _ => 0
  tokens : Outcome → GoMap Unit := fun _ => ∅

def Published.add (published : Published) (pub : Publication) : Published where
  count := Function.update published.count pub.outcome (published.count pub.outcome + 1)
  tokens := Function.update published.tokens pub.outcome
    ((published.tokens pub.outcome).insert pub.token ())

/-- How `range` walks the accepted tokens and what each subscriber has seen. -/
structure Walks where
  accepted : GoMap.Order Unit
  seen : GoString → GoMap.Order Nat

structure Audit where
  duplicates : Nat := 0
  deliveredAmbiguous : GoMap Unit := ∅
  rejectedButDelivered : List GoString := []
  phantom : List GoString := []

def Audit.see (published : Published) (audit : Audit) (entry : GoString × Nat) : Audit :=
  let audit :=
    if 1 < entry.2 then { audit with duplicates := audit.duplicates + (entry.2 - 1) }
    else audit
  if entry.1 ∈ published.tokens .accepted then audit
  else if entry.1 ∈ published.tokens .ambiguous then
    { audit with deliveredAmbiguous := audit.deliveredAmbiguous.insert entry.1 () }
  else if entry.1 ∈ published.tokens .rejected then
    { audit with rejectedButDelivered := audit.rejectedButDelivered ++ [entry.1] }
  else { audit with phantom := audit.phantom ++ [entry.1] }

/-- The order of `sortMisses`. -/
def Miss.less (left right : Miss) : Bool :=
  if left.subscriber ≠ right.subscriber then left.subscriber < right.subscriber
  else left.token < right.token

def sortMisses (misses : List Miss) : List Miss :=
  misses.insertionSort fun left right => right.less left = false

def check (walks : Walks) (pubs : List Publication) (records : GoMap (GoMap Nat))
    (subscribers : List GoString) : Report :=
  let published := pubs.foldl Published.add {}
  let missing := subscribers.flatMap fun sub =>
    let seen := (records.lookup sub).getD ∅
    let accepted := (walks.accepted.walk (published.tokens .accepted)).map Prod.fst
    (accepted.filter fun token => (seen.lookup token).getD 0 = 0).map (Miss.mk sub)
  let deliveries := subscribers.flatMap fun sub =>
    (walks.seen sub).walk ((records.lookup sub).getD ∅)
  let audit := deliveries.foldl (Audit.see published) {}
  { accepted := published.count .accepted
    ambiguous := published.count .ambiguous
    rejected := published.count .rejected
    missing := sortMisses missing
    phantom := sortStrings audit.phantom
    rejectedButDelivered := sortStrings audit.rejectedButDelivered
    duplicates := audit.duplicates
    ambiguousDelivered := audit.deliveredAmbiguous.len }

/-- The parts of the error text: how many there are, and the first one. -/
inductive Problem
  | neverDelivered (count : Nat) (first : Miss)
  | neverPublished (count : Nat) (first : GoString)
  | rejectedDelivered (count : Nat) (first : GoString)
  deriving DecidableEq, Repr

def Report.problems (report : Report) : List Problem :=
  report.missing.head?.toList.map (.neverDelivered report.missing.length) ++
    report.phantom.head?.toList.map (.neverPublished report.phantom.length) ++
    report.rejectedButDelivered.head?.toList.map
      (.rejectedDelivered report.rejectedButDelivered.length)

def Report.err (report : Report) : Option (List Problem) :=
  if report.problems = [] then none else some report.problems

theorem Report.err_eq_none_iff {report : Report} :
    report.err = none ↔ report.missing = [] ∧ report.phantom = [] ∧
      report.rejectedButDelivered = [] := by
  have hempty : ∀ {α : Type} (items : List α) (problem : α → Problem),
      items.head?.toList.map problem = [] ↔ items = [] := by
    intro α items problem
    cases items <;> simp
  simp only [Report.err, Report.problems, List.append_eq_nil_iff, hempty]
  split_ifs with hnone
  · simp [hnone]
  · simp only [false_iff]
    exact fun hall => hnone ⟨⟨hall.1, hall.2.1⟩, hall.2.2⟩

/-! The first loop. -/

theorem mem_tokens_add {published : Published} {pub : Publication} {outcome : Outcome}
    {token : GoString} :
    token ∈ (published.add pub).tokens outcome ↔
      token ∈ published.tokens outcome ∨ pub.outcome = outcome ∧ pub.token = token := by
  unfold Published.add
  dsimp only
  by_cases houtcome : outcome = pub.outcome
  · subst houtcome
    rw [Function.update_self, Finmap.mem_insert, or_comm]
    simp [eq_comm]
  · rw [Function.update_of_ne houtcome]
    simp [Ne.symm houtcome]

theorem mem_tokens_foldl {pubs : List Publication} {published : Published}
    {outcome : Outcome} {token : GoString} :
    token ∈ (pubs.foldl Published.add published).tokens outcome ↔
      token ∈ published.tokens outcome ∨
        ∃ pub ∈ pubs, pub.outcome = outcome ∧ pub.token = token := by
  induction pubs generalizing published with
  | nil => simp
  | cons pub pubs ih =>
      rw [List.foldl_cons, ih, mem_tokens_add, or_assoc]
      simp

theorem mem_tokens {pubs : List Publication} {outcome : Outcome} {token : GoString} :
    token ∈ (pubs.foldl Published.add {}).tokens outcome ↔
      ∃ pub ∈ pubs, pub.outcome = outcome ∧ pub.token = token := by
  rw [mem_tokens_foldl, or_iff_right]
  exact Finmap.notMem_empty

theorem accepted_or_ambiguous_iff {pubs : List Publication} {token : GoString} :
    (token ∈ (pubs.foldl Published.add {}).tokens .accepted ∨
        token ∈ (pubs.foldl Published.add {}).tokens .ambiguous) ↔
      ∃ pub ∈ pubs, pub.token = token ∧ pub.outcome ≠ .rejected := by
  rw [mem_tokens, mem_tokens]
  constructor
  · rintro (⟨pub, hpub, houtcome, htoken⟩ | ⟨pub, hpub, houtcome, htoken⟩)
    · exact ⟨pub, hpub, htoken, by rw [houtcome]; decide⟩
    · exact ⟨pub, hpub, htoken, by rw [houtcome]; decide⟩
  · rintro ⟨pub, hpub, htoken, houtcome⟩
    cases hcase : pub.outcome with
    | accepted => exact .inl ⟨pub, hpub, hcase, htoken⟩
    | ambiguous => exact .inr ⟨pub, hpub, hcase, htoken⟩
    | rejected => exact absurd hcase houtcome

/-! The loop over the deliveries. -/

variable {published : Published}

theorem duplicates_foldl (entries : List (GoString × Nat)) (audit : Audit) :
    (entries.foldl (Audit.see published) audit).duplicates =
      audit.duplicates + (entries.map fun entry => entry.2 - 1).sum := by
  induction entries generalizing audit with
  | nil => rfl
  | cons entry entries ih =>
      have hentry : (audit.see published entry).duplicates =
          audit.duplicates + (entry.2 - 1) := by
        unfold Audit.see
        dsimp only
        split_ifs <;> simp <;> omega
      rw [List.foldl_cons, ih, hentry, List.map_cons, List.sum_cons, Nat.add_assoc]

theorem clean_foldl (entries : List (GoString × Nat)) (audit : Audit) :
    (entries.foldl (Audit.see published) audit).phantom = [] ∧
        (entries.foldl (Audit.see published) audit).rejectedButDelivered = [] ↔
      (audit.phantom = [] ∧ audit.rejectedButDelivered = []) ∧
        ∀ token ∈ entries.map Prod.fst,
          token ∈ published.tokens .accepted ∨ token ∈ published.tokens .ambiguous := by
  induction entries generalizing audit with
  | nil => simp
  | cons entry entries ih =>
      have hentry : (audit.see published entry).phantom = [] ∧
          (audit.see published entry).rejectedButDelivered = [] ↔
          (audit.phantom = [] ∧ audit.rejectedButDelivered = []) ∧
            (entry.1 ∈ published.tokens .accepted ∨
              entry.1 ∈ published.tokens .ambiguous) := by
        unfold Audit.see
        dsimp only
        split_ifs <;> simp_all
      rw [List.foldl_cons, ih, hentry, List.map_cons, List.forall_mem_cons, and_assoc]

section Verdict

variable {records : GoMap (GoMap Nat)} {tokens : GoString → List GoString}
  (hrecords : ∀ sub, GoMap.Counts ((records.lookup sub).getD ∅) (tokens sub))

include hrecords

theorem mem_missing (walks : Walks) (pubs : List Publication) (subscribers : List GoString)
    (miss : Miss) :
    miss ∈ (check walks pubs records subscribers).missing ↔
      miss.subscriber ∈ subscribers ∧ miss.token ∉ tokens miss.subscriber ∧
        ∃ pub ∈ pubs, pub.outcome = .accepted ∧ pub.token = miss.token := by
  have hunseen : ∀ sub token, (((records.lookup sub).getD ∅).lookup token).getD 0 = 0 ↔
      token ∉ tokens sub := by
    intro sub token
    rw [(hrecords sub).getD_lookup, List.count_eq_zero]
  have haccepted : ∀ token, token ∈ (walks.accepted.walk
      ((pubs.foldl Published.add {}).tokens .accepted)).map Prod.fst ↔
      ∃ pub ∈ pubs, pub.outcome = .accepted ∧ pub.token = token := by
    intro token
    rw [GoMap.mem_walk_names, Finmap.mem_keys, mem_tokens]
  simp only [check, sortMisses, List.mem_insertionSort, List.mem_flatMap]
  constructor
  · rintro ⟨sub, hsub, hmiss⟩
    obtain ⟨token, htoken, rfl⟩ := List.mem_map.mp hmiss
    rw [List.mem_filter, haccepted, decide_eq_true_eq, hunseen] at htoken
    exact ⟨hsub, htoken.2, htoken.1⟩
  · rintro ⟨hsub, habsent, hpub⟩
    refine ⟨miss.subscriber, hsub, List.mem_map.mpr ⟨miss.token, ?_, rfl⟩⟩
    rw [List.mem_filter, haccepted, decide_eq_true_eq, hunseen]
    exact ⟨hpub, habsent⟩

theorem clean_iff (walks : Walks) (pubs : List Publication) (subscribers : List GoString) :
    (check walks pubs records subscribers).phantom = [] ∧
        (check walks pubs records subscribers).rejectedButDelivered = [] ↔
      ∀ sub ∈ subscribers, ∀ token ∈ tokens sub,
        ∃ pub ∈ pubs, pub.token = token ∧ pub.outcome ≠ .rejected := by
  have hsorted : ∀ names : List GoString, sortStrings names = [] ↔ names = [] := by
    intro names
    rw [← Multiset.coe_eq_zero, coe_sortStrings, Multiset.coe_eq_zero]
  have hseen : ∀ sub token, token ∈ ((walks.seen sub).walk
      ((records.lookup sub).getD ∅)).map Prod.fst ↔ token ∈ tokens sub := by
    intro sub token
    rw [GoMap.mem_walk_names, (hrecords sub).keys_eq, List.mem_toFinset]
  simp only [check, hsorted]
  rw [clean_foldl, and_iff_right ⟨rfl, rfl⟩, List.map_flatMap]
  simp only [List.mem_flatMap, hseen, accepted_or_ambiguous_iff]
  constructor
  · exact fun hall sub hsub token htoken => hall token ⟨sub, hsub, htoken⟩
  · rintro hall token ⟨sub, hsub, htoken⟩
    exact hall sub hsub token htoken

theorem duplicates_eq (walks : Walks) (pubs : List Publication)
    (subscribers : List GoString) :
    (check walks pubs records subscribers).duplicates +
        (subscribers.map fun sub => (tokens sub).toFinset.card).sum =
      (subscribers.map fun sub => (tokens sub).length).sum := by
  simp only [check, duplicates_foldl, List.map_flatMap, Nat.zero_add]
  induction subscribers with
  | nil => rfl
  | cons sub subscribers ih =>
      have hsub := (hrecords sub).sum_beyond_first ((walks.seen sub).enumerates _)
      simp only [List.flatMap_cons, List.sum_append, List.map_cons, List.sum_cons]
      omega

end Verdict

theorem stats_of_tallied {sub : Sink.Subscriber} {tokens : List GoString}
    (htallied : sub.Tallied tokens) :
    sub.stats.unique = tokens.toFinset.card ∧
      sub.stats.duplicates = tokens.length - tokens.toFinset.card := by
  have hduplicates := htallied.duplicates
  refine ⟨?_, ?_⟩
  · rw [Sink.Subscriber.stats, GoMap.len, htallied.counts.keys_eq]
  · rw [Sink.Subscriber.stats]
    dsimp only
    omega

/-- The verdict is the one that the deliveries call for, in whatever order the maps are
walked, and the sink's own tallies agree with it. -/
theorem verdict_follows_from_deliveries {cfg : Sink.Config} {server : Sink.Server}
    (hnew : Sink.new cfg = .ok server) (hmode : cfg.mode = lit "record")
    (hnames : ∀ name ∈ cfg.subscribers, Utf8.Valid name) {events : List Sink.Event}
    (hlegible : ∀ event ∈ events, event.Legible) (hfew : events.length < 2 ^ 63)
    {body : Bytes} (hbody : (server.run events).handleRecords = some body) (walks : Walks)
    (pubs : List Publication) (subscribers : List GoString) :
    let account := Sink.account cfg.subscribers events
    ∃ records, Sink.fetchRecords body = some records ∧
      let report := check walks pubs records.subscribers subscribers
      (report.err = none ↔
          (∀ pub ∈ pubs, pub.outcome = .accepted →
            ∀ sub ∈ subscribers, pub.token ∈ account.copies sub) ∧
          ∀ sub ∈ subscribers, ∀ token ∈ account.copies sub,
            ∃ pub ∈ pubs, pub.token = token ∧ pub.outcome ≠ .rejected) ∧
        (∀ miss, miss ∈ report.missing ↔
          miss.subscriber ∈ subscribers ∧ miss.token ∉ account.copies miss.subscriber ∧
            ∃ pub ∈ pubs, pub.outcome = .accepted ∧ pub.token = miss.token) ∧
        report.duplicates +
            (subscribers.map fun sub => (account.copies sub).toFinset.card).sum =
          (subscribers.map fun sub => (account.copies sub).length).sum ∧
        (∀ name sub, (server.run events).subs.lookup name = some sub →
          sub.stats.unique = (account.tokens name).toFinset.card ∧
            sub.stats.duplicates =
              (account.tokens name).length - (account.tokens name).toFinset.card) ∧
        ∀ name ∈ cfg.subscribers, ∀ token size, 10 ∉ token →
          (Payload.encode token size).length ≤ Sink.maxBody →
          (Sink.account cfg.subscribers
              (events ++ [.deliver name (some (Payload.encode token size)),
                .tally account.recording.length])).tokens name =
            account.tokens name ++ [token] := by
  intro account
  have hreflects := (Sink.reflects_new hnew hmode).run events
  have hsent := hreflects.sendable (Sink.Account.Legible.initial.run _ hlegible)
    (by omega) hnames
  have hrecords := hreflects.counts_copied
  have hmissing := mem_missing hrecords walks pubs subscribers
  refine ⟨⟨(server.run events).mode.name, (server.run events).copied⟩, ?_, ?_, hmissing,
    duplicates_eq hrecords walks pubs subscribers, ?_, ?_⟩
  · unfold Sink.Server.handleRecords at hbody
    split_ifs at hbody
    cases hbody
    exact Sink.fetchRecords_marshal hsent (by rw [hreflects.mode]; rfl)
  · rw [Report.err_eq_none_iff, clean_iff hrecords]
    refine and_congr_left' ?_
    rw [List.eq_nil_iff_forall_not_mem]
    constructor
    · intro hnone pub hpub houtcome sub hsub
      by_contra habsent
      have hmiss := (hmissing ⟨sub, pub.token⟩).mpr
        ⟨hsub, habsent, pub, hpub, houtcome, rfl⟩
      exact hnone _ hmiss
    · intro hall miss hmiss
      obtain ⟨hsub, habsent, pub, hpub, houtcome, htoken⟩ := (hmissing miss).mp hmiss
      exact habsent (htoken ▸ hall pub hpub houtcome _ hsub)
  · intro name sub hlookup
    by_cases hname : name ∈ cfg.subscribers
    · obtain ⟨found, hfound, htallied⟩ := hreflects.known name hname
      rw [hlookup] at hfound
      cases hfound
      exact stats_of_tallied htallied
    · rw [(hreflects.unknown name hname).1] at hlookup
      contradiction
  · intro name hname token size hline hfits
    exact Sink.tokens_of_encode hname hline hfits events

def twoSubscribers : Sink.Config := ⟨[lit "sub-0", lit "sub-1"], lit "record"⟩

def inKeyOrder : Walks where
  accepted := .sorted
  seen _ := .sorted

def firstAcceptedSecondInDoubt : List Publication :=
  [⟨lit "tok-1", .accepted⟩, ⟨lit "tok-2", .ambiguous⟩]

/-- A delivery of an earlier run is recorded between the two halves of a reset, and so is
cleared.  Then the accepted token comes in twice for one of the subscribers, and the
doubtful one for the other. -/
def redelivered : List Sink.Event :=
  [.clearCount (lit "sub-0"),
    .deliver (lit "sub-0") (some (Payload.encode (lit "tok-0") 16)), .tally 0,
    .clearSeen (lit "sub-0"), .clearCount (lit "sub-1"), .clearSeen (lit "sub-1"),
    .clearUnknown,
    .deliver (lit "sub-0") (some (Payload.encode (lit "tok-1") 16)),
    .deliver (lit "sub-1") (some (Payload.encode (lit "tok-1") 16)),
    .deliver (lit "sub-1") (some (Payload.encode (lit "tok-2") 16)), .tally 2, .tally 1,
    .deliver (lit "sub-0") (some (Payload.encode (lit "tok-1") 16)), .tally 1, .tally 0,
    .copy, .copy]

theorem redelivered_passes :
    ∃ server body records, Sink.new twoSubscribers = .ok server ∧
      (server.run redelivered).handleRecords = some body ∧
      Sink.fetchRecords body = some records ∧
      (check inKeyOrder firstAcceptedSecondInDoubt records.subscribers
        twoSubscribers.subscribers).err = none := by
  have hanswered : ((Sink.new twoSubscribers).toOption.bind fun server =>
      (server.run redelivered).handleRecords).isSome := by
    decide +kernel
  obtain ⟨body, hanswer⟩ := Option.isSome_iff_exists.mp hanswered
  obtain ⟨server, hserver, hbody⟩ := Option.bind_eq_some_iff.mp hanswer
  cases hnew : Sink.new twoSubscribers with
  | error err =>
      rw [hnew] at hserver
      cases hserver
  | ok started =>
      rw [hnew] at hserver
      cases hserver
      have hnames : ∀ name ∈ twoSubscribers.subscribers, Utf8.Valid name := by
        decide +kernel
      have hlegible : ∀ event ∈ redelivered, event.Legible := by
        decide +kernel
      have hfew : redelivered.length < 2 ^ 63 := by
        decide +kernel
      obtain ⟨records, hfetched, hverdict, -⟩ := verdict_follows_from_deliveries hnew rfl
        hnames hlegible hfew hbody inKeyOrder firstAcceptedSecondInDoubt
        twoSubscribers.subscribers
      exact ⟨server, body, records, rfl, hbody, hfetched,
        hverdict.mpr ⟨by decide +kernel, by decide +kernel⟩⟩

end SimonMQ.Dist.Verify
