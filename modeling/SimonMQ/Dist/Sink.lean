import SimonMQ.Dist.Client
import SimonMQ.Go.Counts
import SimonMQ.Go.JsonCodec

namespace SimonMQ.Dist

open SimonMQ.Go
open SimonMQ.Go.Json
open SimonMQ.Go.Utf8

/-! The receiving end of an end-to-end run.  A publisher puts a token on the first line of
every body, and the sink remembers which tokens came in for which subscriber.  The
handlers run beside each other, so a step ends where another one could get in between. -/

namespace Payload

/-- A token, a newline, and as many `x` as the size asks for. -/
def encode (token : GoString) (size : Int) : Bytes :=
  let head := token ++ [10]
  head ++ List.replicate (size - head.length).toNat 120

def token (body : Bytes) : GoString :=
  match body.findIdx? (· = 10) with
  | some i => body.take i
  | none => body

theorem token_encode {name : GoString} (hline : 10 ∉ name) (size : Int) :
    token (encode name size) = name := by
  have hname : name.findIdx? (· = 10) = none := by
    rw [List.findIdx?_eq_none_iff]
    intro byte hbyte
    exact decide_eq_false fun heq => hline (heq ▸ hbyte)
  simp [token, encode, List.findIdx?_append, hname, List.findIdx?_cons]

end Payload

namespace Sink

/-- `4 << 20`. -/
def maxBody : Nat := 4194304

inductive Mode
  | count
  | record
  deriving DecidableEq, Repr

def Mode.name : Mode → GoString
  | .count => lit "count"
  | .record => lit "record"

def Mode.ofName (name : GoString) : Option Mode :=
  if name = lit "count" then some .count
  else if name = lit "record" then some .record
  else none

structure Config where
  subscribers : List GoString
  mode : GoString

inductive ConfigError
  | noSubscribers
  | unknownMode (mode : GoString)
  | emptyName
  | duplicate (name : GoString)
  deriving DecidableEq, Repr

/-- In count mode `seen` is nil, and nothing is stored in it. -/
structure Subscriber where
  delivered : Nat := 0
  seen : GoMap Nat := ∅
  duplicates : Nat := 0

/-- What `record` does under the lock. -/
def Subscriber.tally (sub : Subscriber) (token : GoString) : Subscriber :=
  let sub := { sub with seen := sub.seen.increment token }
  if 1 < (sub.seen.lookup token).getD 0 then { sub with duplicates := sub.duplicates + 1 }
  else sub

structure SubStats where
  delivered : Nat
  unique : Nat
  duplicates : Nat
  deriving DecidableEq, Repr

def Subscriber.stats (sub : Subscriber) : SubStats where
  delivered := sub.delivered
  unique := sub.seen.len
  duplicates := sub.duplicates

structure Server where
  mode : Mode
  subs : GoMap Subscriber := ∅
  order : List GoString := []
  unknown : Nat := 0
  /-- calls of `record` that have counted the delivery and not yet taken the lock -/
  recording : List (GoString × GoString) := []
  /-- how many turns a call of `handleRecords` has made, and what it has copied -/
  turn : Nat := 0
  copied : GoMap (GoMap Nat) := ∅

def Server.register (server : Server) : List GoString → Except ConfigError Server
  | [] => .ok server
  | name :: names =>
      if name = [] then .error .emptyName
      else if name ∈ server.subs then .error (.duplicate name)
      else
        { server with
          subs := server.subs.insert name {}
          order := server.order ++ [name] }.register names

def new (cfg : Config) : Except ConfigError Server :=
  if cfg.subscribers = [] then .error .noSubscribers
  else
    let mode := if cfg.mode = [] then lit "count" else cfg.mode
    match Mode.ofName mode with
    | none => .error (.unknownMode mode)
    | some mode => ({ mode } : Server).register cfg.subscribers

/-- `handleDelivery` up to the lock in `record`, with the status of the answer.  A body
that could not be read is `none`. -/
def Server.handleDelivery (server : Server) (name : GoString) (body : Option Bytes) :
    Server × Nat :=
  match server.subs.lookup name with
  | none => ({ server with unknown := server.unknown + 1 }, 404)
  | some sub =>
      match body with
      | none => (server, 400)
      | some body =>
          if maxBody < body.length then (server, 400)
          else
            let server := { server with
              subs := server.subs.insert name { sub with delivered := sub.delivered + 1 } }
            match server.mode with
            | .count => (server, 200)
            | .record =>
                ({ server with recording := server.recording ++ [(name, Payload.token body)] },
                  200)

inductive Event
  | deliver (name : GoString) (body : Option Bytes)
  /-- one of the calls of `record` gets the lock -/
  | tally (index : Nat)
  /-- `reset` before its lock -/
  | clearCount (name : GoString)
  /-- `reset` under its lock -/
  | clearSeen (name : GoString)
  | clearUnknown
  /-- a turn of the loop in `handleRecords` -/
  | copy
  deriving DecidableEq, Repr

def Server.update (server : Server) (name : GoString) (f : Subscriber → Subscriber) :
    Server :=
  match server.subs.lookup name with
  | none => server
  | some sub => { server with subs := server.subs.insert name (f sub) }

def Server.step (server : Server) : Event → Server
  | .deliver name body => (server.handleDelivery name body).1
  | .tally index =>
      match server.recording[index]? with
      | none => server
      | some (name, token) =>
          { server with recording := server.recording.eraseIdx index }.update name
            fun sub => sub.tally token
  | .clearCount name => server.update name fun sub => { sub with delivered := 0 }
  | .clearSeen name => server.update name fun sub => { sub with seen := ∅, duplicates := 0 }
  | .clearUnknown => { server with unknown := 0 }
  | .copy =>
      match server.order[server.turn]? with
      | none => server
      | some name =>
          { server with
            turn := server.turn + 1
            copied := server.copied.insert name
              (((server.subs.lookup name).map Subscriber.seen).getD ∅) }

def Server.run (server : Server) (events : List Event) : Server :=
  events.foldl Server.step server

/-! The records on their way to whoever asks for them. -/

structure Records where
  mode : GoString
  subscribers : GoMap (GoMap Nat)

/-- A count, which is an `int` that never gets negative. -/
def countValue (count : Nat) : Value := .number (formatInt (Int64.ofNat count).toInt)

def intoCount (json : Value) (old : Nat) : Option Nat :=
  (intoInt json (Int64.ofNat old)).map fun count => count.toInt.toNat

theorem printable_counts (counts : GoMap Nat) : Printable 1 (mapValue countValue counts) :=
  printable_mapValue (fun _ => .number _) counts

namespace Records

def zero : Records := ⟨[], ∅⟩

def fields : List (StructField Records) :=
  [ .string (lit "Mode") mode fun rec mode => { rec with mode },
    .mapOf (lit "Subscribers") printable_counts (intoMap intoCount 0) ∅ subscribers
      fun rec subscribers => { rec with subscribers } ]

def asInt (count : Nat) : Nat := (Int64.ofNat count).toInt.toNat

def coerce (rec : Records) : Records where
  mode := toValid rec.mode
  subscribers := coerceMap (coerceMap asInt) rec.subscribers

theorem intoCount_coerce (count : Nat) :
    intoCount (countValue count).coerce 0 = some (asInt count) := by
  rw [intoCount, countValue, intoInt_coerce]
  rfl

theorem intoStruct_coerce (rec : Records) :
    intoStruct fields (structValue fields rec).coerce zero = some rec.coerce := by
  have hnames : WellNamed fields := by decide +kernel
  have hsubscribers := intoMap_coerce (intoMap_coerce intoCount_coerce) rec.subscribers
  rw [Json.intoStruct_coerce hnames]
  simp [fields, StructField.string, StructField.mapOf, coerce, zero, hsubscribers]

/-- Valid names and tokens, and counts that an `int` can hold. -/
structure Sendable (rec : Records) : Prop where
  mode : Valid rec.mode
  names : ∀ name seen, rec.subscribers.lookup name = some seen → Valid name
  tokens : ∀ name seen, rec.subscribers.lookup name = some seen → ∀ token count,
    seen.lookup token = some count → Valid token ∧ count < 2 ^ 63

theorem asInt_of_lt {count : Nat} (hlt : count < 2 ^ 63) : asInt count = count := by
  rw [asInt, Int64.toInt_ofNat_of_lt hlt, Int.toNat_natCast]

theorem coerce_of_sendable {rec : Records} (hsendable : rec.Sendable) : rec.coerce = rec := by
  have hseen : coerceMap (coerceMap asInt) rec.subscribers = rec.subscribers := by
    apply coerceMap_of_valid
    intro name seen hlookup
    refine ⟨hsendable.names name seen hlookup, coerceMap_of_valid fun token count hcount => ?_⟩
    obtain ⟨hvalid, hlt⟩ := hsendable.tokens name seen hlookup token count hcount
    exact ⟨hvalid, asInt_of_lt hlt⟩
  rw [coerce, hseen, flatten_runes_of_valid hsendable.mode]

end Records

/-- `handleRecords` from the end of its loop: the body, which `Encode` ends with a
newline. -/
def Server.handleRecords (server : Server) : Option Bytes :=
  if server.turn = server.order.length then
    some (marshal Records.fields ⟨server.mode.name, server.copied⟩ ++ [0x0A])
  else none

/-- `fetchRecords`, from the body of the answer. -/
def fetchRecords (body : Bytes) : Option Records :=
  (unmarshal Records.fields .zero body).filter fun rec => rec.mode = lit "record"

theorem fetchRecords_marshal {rec : Records} (hsendable : rec.Sendable)
    (hmode : rec.mode = lit "record") :
    fetchRecords (marshal Records.fields rec ++ [0x0A]) = some rec := by
  rw [fetchRecords, unmarshal_marshal_newline (by decide), Records.intoStruct_coerce,
    Records.coerce_of_sendable hsendable]
  simp [hmode]

/-! The tokens behind the counts. -/

/-- What a sink for these subscribers has come to, as lists of tokens. -/
structure Account where
  recording : List (GoString × GoString) := []
  /-- recorded for each subscriber since it was last cleared -/
  tokens : GoString → List GoString := fun _ => []
  turn : Nat := 0
  /-- recorded when its turn came to be copied -/
  copies : GoString → List GoString := fun _ => []

def Account.step (names : List GoString) (account : Account) : Event → Account
  | .deliver name (some body) =>
      if name ∈ names ∧ body.length ≤ maxBody then
        { account with recording := account.recording ++ [(name, Payload.token body)] }
      else account
  | .tally index =>
      match account.recording[index]? with
      | none => account
      | some (name, token) =>
          { account with
            recording := account.recording.eraseIdx index
            tokens := Function.update account.tokens name (account.tokens name ++ [token]) }
  | .clearSeen name => { account with tokens := Function.update account.tokens name [] }
  | .copy =>
      match names[account.turn]? with
      | none => account
      | some name =>
          { account with
            turn := account.turn + 1
            copies := Function.update account.copies name (account.tokens name) }
  | .deliver _ none | .clearCount _ | .clearUnknown => account

def account (names : List GoString) (events : List Event) : Account :=
  events.foldl (Account.step names) {}

theorem tokens_of_encode {names : List GoString} {name : GoString} (hname : name ∈ names)
    {token : GoString} (hline : 10 ∉ token) {size : Int}
    (hfits : (Payload.encode token size).length ≤ maxBody) (events : List Event) :
    (account names (events ++ [.deliver name (some (Payload.encode token size)),
        .tally (account names events).recording.length])).tokens name =
      (account names events).tokens name ++ [token] := by
  rw [account, List.foldl_append, List.foldl_cons, List.foldl_cons, List.foldl_nil]
  simp [account, Account.step, hname, hfits, Payload.token_encode hline]

structure Subscriber.Tallied (sub : Subscriber) (tokens : List GoString) : Prop where
  counts : sub.seen.Counts tokens
  duplicates : sub.duplicates + tokens.toFinset.card = tokens.length

namespace Subscriber

variable {sub : Subscriber} {tokens : List GoString}

theorem tallied_new : Tallied {} [] where
  counts := GoMap.counts_empty
  duplicates := rfl

theorem Tallied.of_same {next : Subscriber} (htallied : sub.Tallied tokens)
    (hseen : next.seen = sub.seen) (hduplicates : next.duplicates = sub.duplicates) :
    next.Tallied tokens where
  counts := hseen ▸ htallied.counts
  duplicates := hduplicates ▸ htallied.duplicates

theorem Tallied.tally (htallied : sub.Tallied tokens) (token : GoString) :
    (sub.tally token).Tallied (tokens ++ [token]) := by
  have hcounts := htallied.counts.increment token
  have hduplicates := htallied.duplicates
  have hcount : ((sub.seen.increment token).lookup token).getD 0 =
      tokens.count token + 1 := by
    rw [hcounts.getD_lookup, List.count_append, List.count_singleton_self]
  unfold Subscriber.tally
  dsimp only
  rw [hcount]
  by_cases hseen : token ∈ tokens
  · have hpos : 0 < tokens.count token := List.count_pos_iff.mpr hseen
    rw [if_pos (Nat.succ_lt_succ hpos)]
    refine ⟨hcounts, ?_⟩
    have hsame : (tokens ++ [token]).toFinset = tokens.toFinset := by simp [hseen]
    rw [hsame, List.length_append, List.length_singleton]
    dsimp only
    omega
  · rw [List.count_eq_zero_of_not_mem hseen, if_neg (Nat.lt_irrefl _)]
    refine ⟨hcounts, ?_⟩
    have hnew : (tokens ++ [token]).toFinset.card = tokens.toFinset.card + 1 := by
      rw [List.toFinset_append, Finset.union_comm]
      simp [hseen]
    rw [hnew, List.length_append, List.length_singleton]
    dsimp only
    omega

end Subscriber

/-- The server stands where the account does. -/
structure Server.Reflects (server : Server) (names : List GoString) (account : Account) :
    Prop where
  mode : server.mode = .record
  order : server.order = names
  recording : server.recording = account.recording
  listed : ∀ entry ∈ account.recording, entry.1 ∈ names
  known : ∀ name ∈ names, ∃ sub, server.subs.lookup name = some sub ∧
    sub.Tallied (account.tokens name)
  unknown : ∀ name ∉ names, server.subs.lookup name = none ∧ account.tokens name = []
  turn : server.turn = account.turn
  copied : ∀ name seen, server.copied.lookup name = some seen →
    name ∈ names ∧ seen.Counts (account.copies name)
  uncopied : ∀ name, server.copied.lookup name = none → account.copies name = []

namespace Server.Reflects

variable {server : Server} {names : List GoString} {acc : Account}

theorem setSub (hreflects : server.Reflects names acc) {name : GoString}
    (hname : name ∈ names) {sub : Subscriber} {tokens : List GoString}
    (hsub : sub.Tallied tokens) :
    Reflects { server with subs := server.subs.insert name sub } names
      { acc with tokens := Function.update acc.tokens name tokens } :=
  { hreflects with
    known := by
      intro other hother
      rw [GoMap.lookup_insert_eq]
      split_ifs with heq
      · subst heq
        dsimp only
        rw [Function.update_self]
        exact ⟨sub, rfl, hsub⟩
      · dsimp only
        rw [Function.update_of_ne heq]
        exact hreflects.known other hother
    unknown := by
      intro other hother
      have hne : other ≠ name := fun heq => hother (heq ▸ hname)
      dsimp only
      rw [GoMap.lookup_insert_eq, if_neg hne, Function.update_of_ne hne]
      exact hreflects.unknown other hother }

theorem update (hreflects : server.Reflects names acc) {name : GoString}
    (hname : name ∈ names) {f : Subscriber → Subscriber} {tokens : List GoString}
    (hf : ∀ sub, sub.Tallied (acc.tokens name) → (f sub).Tallied tokens) :
    (server.update name f).Reflects names
      { acc with tokens := Function.update acc.tokens name tokens } := by
  obtain ⟨sub, hlookup, htallied⟩ := hreflects.known name hname
  rw [Server.update, hlookup]
  exact hreflects.setSub hname (hf sub htallied)

theorem update_of_unknown (hreflects : server.Reflects names acc) {name : GoString}
    (hname : name ∉ names) (f : Subscriber → Subscriber) :
    (server.update name f).Reflects names acc := by
  rw [Server.update, (hreflects.unknown name hname).1]
  exact hreflects

theorem touch (hreflects : server.Reflects names acc) (name : GoString)
    {f : Subscriber → Subscriber} (hseen : ∀ sub, (f sub).seen = sub.seen)
    (hduplicates : ∀ sub, (f sub).duplicates = sub.duplicates) :
    (server.update name f).Reflects names acc := by
  by_cases hname : name ∈ names
  · have hupdated := hreflects.update hname
      fun sub htallied => htallied.of_same (hseen sub) (hduplicates sub)
    rwa [Function.update_eq_self] at hupdated
  · exact hreflects.update_of_unknown hname f

theorem deliver (hreflects : server.Reflects names acc) (name : GoString)
    (body : Option Bytes) :
    (server.step (.deliver name body)).Reflects names
      (acc.step names (.deliver name body)) := by
  rw [Server.step, Server.handleDelivery]
  by_cases hname : name ∈ names
  · obtain ⟨sub, hlookup, htallied⟩ := hreflects.known name hname
    rw [hlookup]
    cases body with
    | none => exact hreflects
    | some body =>
        have hsame : Subscriber.Tallied { sub with delivered := sub.delivered + 1 } _ :=
          htallied.of_same rfl rfl
        have hcounted := hreflects.setSub hname hsame
        rw [Function.update_eq_self] at hcounted
        dsimp only
        split_ifs with hlong
        · rw [Account.step, if_neg fun hfits => absurd hfits.2 (Nat.not_le.mpr hlong)]
          exact hreflects
        · rw [Account.step, if_pos ⟨hname, Nat.not_lt.mp hlong⟩]
          split
          next hcount => exact absurd (hreflects.mode.symm.trans hcount) (by decide)
          next =>
              exact { hcounted with
                recording := congrArg (· ++ _) hreflects.recording
                listed := by
                  intro entry hentry
                  rcases List.mem_append.mp hentry with hold | hnew
                  · exact hreflects.listed entry hold
                  · rw [List.mem_singleton.mp hnew]
                    exact hname }
  · rw [(hreflects.unknown name hname).1]
    have hsame : acc.step names (.deliver name body) = acc := by
      cases body with
      | none => rfl
      | some body => exact if_neg fun hfits => hname hfits.1
    rw [hsame]
    exact { hreflects with }

theorem tally (hreflects : server.Reflects names acc) (index : Nat) :
    (server.step (.tally index)).Reflects names (acc.step names (.tally index)) := by
  rw [Server.step, Account.step, hreflects.recording]
  cases hentry : acc.recording[index]? with
  | none => exact hreflects
  | some entry =>
      have hname := hreflects.listed entry (List.mem_of_getElem? hentry)
      have herased : Reflects { server with recording := acc.recording.eraseIdx index } names
          { acc with recording := acc.recording.eraseIdx index } :=
        { hreflects with
          recording := rfl
          listed := fun other hother =>
            hreflects.listed other (List.mem_of_mem_eraseIdx hother) }
      exact herased.update hname fun sub htallied => htallied.tally entry.2

theorem clearSeen (hreflects : server.Reflects names acc) (name : GoString) :
    (server.step (.clearSeen name)).Reflects names (acc.step names (.clearSeen name)) := by
  rw [Server.step, Account.step]
  by_cases hname : name ∈ names
  · exact hreflects.update hname fun sub _ =>
      Subscriber.tallied_new.of_same rfl rfl
  · have hupdated := hreflects.update_of_unknown hname
      fun sub => { sub with seen := ∅, duplicates := 0 }
    rwa [← (hreflects.unknown name hname).2, Function.update_eq_self]

theorem copy (hreflects : server.Reflects names acc) :
    (server.step .copy).Reflects names (acc.step names .copy) := by
  rw [Server.step, Account.step, hreflects.order, hreflects.turn]
  cases hturn : names[acc.turn]? with
  | none => exact hreflects
  | some name =>
      obtain ⟨sub, hlookup, htallied⟩ := hreflects.known name (List.mem_of_getElem? hturn)
      dsimp only
      rw [hlookup]
      exact { hreflects with
        order := rfl
        turn := rfl
        copied := by
          intro other seen hseen
          rw [GoMap.lookup_insert_eq] at hseen
          split_ifs at hseen with heq
          · cases hseen
            subst heq
            dsimp only
            rw [Function.update_self]
            exact ⟨List.mem_of_getElem? hturn, htallied.counts⟩
          · dsimp only
            rw [Function.update_of_ne heq]
            exact hreflects.copied other seen hseen
        uncopied := by
          intro other hnone
          rw [GoMap.lookup_insert_eq] at hnone
          split_ifs at hnone with heq
          dsimp only
          rw [Function.update_of_ne heq]
          exact hreflects.uncopied other hnone }

theorem step (hreflects : server.Reflects names acc) (event : Event) :
    (server.step event).Reflects names (acc.step names event) := by
  cases event with
  | deliver name body => exact hreflects.deliver name body
  | tally index => exact hreflects.tally index
  | clearCount name => exact hreflects.touch name (fun _ => rfl) fun _ => rfl
  | clearSeen name => exact hreflects.clearSeen name
  | clearUnknown => exact { hreflects with }
  | copy => exact hreflects.copy

theorem run (hreflects : server.Reflects names acc) (events : List Event) :
    (server.run events).Reflects names (events.foldl (Account.step names) acc) := by
  induction events generalizing server acc with
  | nil => exact hreflects
  | cons event events ih => exact ih (hreflects.step event)

end Server.Reflects

theorem Server.reflects_register {server final : Server} {before names : List GoString}
    (hreflects : server.Reflects before {})
    (hregister : server.register names = .ok final) :
    final.Reflects (before ++ names) {} := by
  induction names generalizing server before with
  | nil =>
      cases hregister
      rwa [List.append_nil]
  | cons name names ih =>
      rw [Server.register] at hregister
      split_ifs at hregister with hempty hdup
      have hadded : Server.Reflects { server with
          subs := server.subs.insert name {}
          order := server.order ++ [name] } (before ++ [name]) {} :=
        { hreflects with
          order := by rw [hreflects.order]
          listed := by simp
          known := by
            intro other hother
            rw [GoMap.lookup_insert_eq]
            split_ifs with heq
            · exact ⟨{}, rfl, Subscriber.tallied_new⟩
            · exact hreflects.known other (by simpa [heq] using hother)
          unknown := by
            intro other hother
            rw [List.mem_append, List.mem_singleton, not_or] at hother
            rw [GoMap.lookup_insert_eq, if_neg hother.2]
            exact hreflects.unknown other hother.1
          copied := fun other seen hseen =>
            (hreflects.copied other seen hseen).imp_left (List.mem_append_left _) }
      have hfinal := ih hadded hregister
      rwa [List.append_assoc, List.singleton_append] at hfinal

theorem reflects_new {cfg : Config} {server : Server} (hnew : new cfg = .ok server)
    (hmode : cfg.mode = lit "record") : server.Reflects cfg.subscribers {} := by
  have hsubscribers : cfg.subscribers ≠ [] := by
    intro hempty
    rw [new, if_pos hempty] at hnew
    contradiction
  have hrecord : Mode.ofName (if cfg.mode = [] then lit "count" else cfg.mode) =
      some .record := by
    rw [hmode]
    decide
  rw [new, if_neg hsubscribers] at hnew
  dsimp only at hnew
  rw [hrecord] at hnew
  have hempty : Server.Reflects { mode := .record } [] {} :=
    ⟨rfl, rfl, rfl, by simp, by simp, by simp, rfl, by simp, by simp⟩
  exact Server.reflects_register hempty hnew

/-! What the answer to `GET /records` can hold. -/

/-- The first line of the body is valid UTF-8. -/
def Event.Legible : Event → Prop
  | .deliver _ (some body) => Valid (Payload.token body)
  | _ => True

instance (event : Event) : Decidable event.Legible :=
  match event with
  | .deliver _ (some body) => inferInstanceAs (Decidable (Valid (Payload.token body)))
  | .deliver _ none | .tally _ | .clearCount _ | .clearSeen _ | .clearUnknown | .copy =>
      isTrue trivial

/-- The tokens are valid, and no more than the steps that it took. -/
structure Account.Legible (acc : Account) (steps : Nat) : Prop where
  recording : ∀ entry ∈ acc.recording, Valid entry.2
  tokens : ∀ name, ∀ token ∈ acc.tokens name, Valid token
  copies : ∀ name, ∀ token ∈ acc.copies name, Valid token
  length : ∀ name, (acc.tokens name).length + acc.recording.length ≤ steps
  copied : ∀ name, (acc.copies name).length ≤ steps

namespace Account.Legible

variable {acc : Account} {steps : Nat}

theorem initial : Legible {} 0 := by
  constructor <;> simp

theorem mono (hlegible : acc.Legible steps) : acc.Legible (steps + 1) :=
  { hlegible with
    length := fun name => (hlegible.length name).trans (Nat.le_succ _)
    copied := fun name => (hlegible.copied name).trans (Nat.le_succ _) }

theorem tally (hlegible : acc.Legible steps) {index : Nat} {name token : GoString}
    (hentry : acc.recording[index]? = some (name, token)) :
    Legible { acc with
      recording := acc.recording.eraseIdx index
      tokens := Function.update acc.tokens name (acc.tokens name ++ [token]) } steps := by
  have hlt := (List.getElem?_eq_some_iff.mp hentry).1
  have herased : (acc.recording.eraseIdx index).length + 1 = acc.recording.length := by
    rw [List.length_eraseIdx_of_lt hlt]
    omega
  exact { hlegible with
    recording := fun entry hmem => hlegible.recording entry (List.mem_of_mem_eraseIdx hmem)
    tokens := by
      intro other item hitem
      dsimp only at hitem
      by_cases heq : other = name
      · subst heq
        rw [Function.update_self] at hitem
        rcases List.mem_append.mp hitem with hold | hnew
        · exact hlegible.tokens other item hold
        · rw [List.mem_singleton.mp hnew]
          exact hlegible.recording _ (List.mem_of_getElem? hentry)
      · rw [Function.update_of_ne heq] at hitem
        exact hlegible.tokens other item hitem
    length := by
      intro other
      have hlength := hlegible.length other
      dsimp only
      by_cases heq : other = name
      · subst heq
        rw [Function.update_self, List.length_append, List.length_singleton]
        omega
      · rw [Function.update_of_ne heq]
        omega }

theorem clearSeen (hlegible : acc.Legible steps) (name : GoString) :
    Legible { acc with tokens := Function.update acc.tokens name [] } steps :=
  { hlegible with
    tokens := by
      intro other item hitem
      dsimp only at hitem
      by_cases heq : other = name
      · subst heq
        rw [Function.update_self] at hitem
        contradiction
      · rw [Function.update_of_ne heq] at hitem
        exact hlegible.tokens other item hitem
    length := by
      intro other
      have hlength := hlegible.length other
      dsimp only
      by_cases heq : other = name
      · subst heq
        rw [Function.update_self, List.length_nil]
        omega
      · rwa [Function.update_of_ne heq] }

theorem copy (hlegible : acc.Legible steps) (name : GoString) (turn : Nat) :
    Legible { acc with
      turn := turn
      copies := Function.update acc.copies name (acc.tokens name) } steps :=
  { hlegible with
    copies := by
      intro other item hitem
      dsimp only at hitem
      by_cases heq : other = name
      · subst heq
        rw [Function.update_self] at hitem
        exact hlegible.tokens other item hitem
      · rw [Function.update_of_ne heq] at hitem
        exact hlegible.copies other item hitem
    copied := by
      intro other
      dsimp only
      by_cases heq : other = name
      · subst heq
        rw [Function.update_self]
        exact (Nat.le_add_right _ _).trans (hlegible.length other)
      · rw [Function.update_of_ne heq]
        exact hlegible.copied other }

theorem step (hlegible : acc.Legible steps) (names : List GoString) {event : Event}
    (hevent : event.Legible) : (acc.step names event).Legible (steps + 1) := by
  unfold Account.step
  split
  next name body =>
      split_ifs
      · exact { hlegible.mono with
          recording := by
            intro entry hmem
            rcases List.mem_append.mp hmem with hold | hnew
            · exact hlegible.recording entry hold
            · rw [List.mem_singleton.mp hnew]
              exact hevent
          length := by
            intro other
            have hlength := hlegible.length other
            rw [List.length_append, List.length_singleton]
            dsimp only
            omega }
      · exact hlegible.mono
  next index =>
      split
      next => exact hlegible.mono
      next name token hentry => exact (hlegible.tally hentry).mono
  next name => exact (hlegible.clearSeen name).mono
  next =>
      split
      next => exact hlegible.mono
      next name hturn => exact (hlegible.copy name _).mono
  all_goals exact hlegible.mono

theorem run (hlegible : acc.Legible steps) (names : List GoString) {events : List Event}
    (hevents : ∀ event ∈ events, event.Legible) :
    (events.foldl (Account.step names) acc).Legible (steps + events.length) := by
  induction events generalizing acc steps with
  | nil => exact hlegible
  | cons event events ih =>
      rw [List.length_cons, Nat.add_comm events.length, ← Nat.add_assoc]
      exact ih (hlegible.step names (hevents event List.mem_cons_self))
        fun later hlater => hevents later (List.mem_cons_of_mem _ hlater)

end Account.Legible

namespace Server.Reflects

variable {server : Server} {names : List GoString} {acc : Account}

theorem counts_copied (hreflects : server.Reflects names acc) (name : GoString) :
    GoMap.Counts ((server.copied.lookup name).getD ∅) (acc.copies name) := by
  cases hlookup : server.copied.lookup name with
  | none =>
      rw [hreflects.uncopied name hlookup]
      exact GoMap.counts_empty
  | some seen => exact (hreflects.copied name seen hlookup).2

theorem sendable (hreflects : server.Reflects names acc) {steps : Nat}
    (hlegible : acc.Legible steps) (hsteps : steps < 2 ^ 63)
    (hnames : ∀ name ∈ names, Valid name) :
    Records.Sendable ⟨server.mode.name, server.copied⟩ where
  mode := by
    have hrecord : Valid (lit "record") := valid_of_ascii (by decide +kernel)
    rw [hreflects.mode]
    exact hrecord
  names := fun name seen hlookup => hnames name (hreflects.copied name seen hlookup).1
  tokens := by
    intro name seen hlookup token count hcount
    have hcounts := (hreflects.copied name seen hlookup).2
    rw [hcounts token] at hcount
    split_ifs at hcount with hmem
    cases hcount
    refine ⟨hlegible.copies name token hmem, ?_⟩
    exact (List.count_le_length.trans (hlegible.copied name)).trans_lt hsteps

end Server.Reflects

end Sink

end SimonMQ.Dist
