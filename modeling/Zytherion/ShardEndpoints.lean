import Zytherion.RateLimits
import Zytherion.ShardDirectories
import Zytherion.ShardUploads

/-!
# The shard server as a whole

`StartShardServer` has two endpoints. Every request to one of them is counted by the
limiter; one to `/shard` needs an `Authorization` header that is longer than its scheme
before the method is looked at. `/shardmeta` lists what is stored of a commitment.

The server is seen through the log of what it was asked and what it answered: what is found
under a commitment and an index is what was last answered with 201, and the limiter bounds
what is answered in a minute over both endpoints.
-/
namespace Zytherion.ShardEndpoints

open GoCall KeyedStore Application ByteStrings Shards ShardPlacement ShardServer RateLimits
open ShardDirectories ShardUploads UploadText SubmitAgreement

inductive Route where
  | shard
  | shardmeta
  | unknown
deriving DecidableEq

/-- A request; parameters and headers are empty if they are absent. -/
structure HttpRequest where
  client : Request
  route : Route
  method : String
  authorization : String
  commitment : String
  index : String
  body : Except Err (List UInt8)

/-- A request with what the disk does to it: the outcomes of writing, and a failure to list. -/
structure Arrival where
  request : HttpRequest
  env : Environment
  listing : Option Err

def unauthorized (message : String) : HttpError := ⟨message, 401⟩

/-- The value of the header is not compared with anything. -/
def authMiddleware {α : Type} (next : HttpRequest → Handling α) (q : HttpRequest) : Handling α := do
  require (q.authorization ≠ "") (unauthorized "missing Authorization header")
  require (decide ("Bearer ".utf8ByteSize < q.authorization.utf8ByteSize))
    (unauthorized "malformed Authorization header")
  next q

section Endpoints
variable (S : ServerLibs)

def shardMethods (env : Environment) (q : HttpRequest) : Handling HttpResponse :=
  if q.method = "GET" then gets (handleGetShard q.commitment q.index)
  else if q.method = "POST" then do
    handlePostShard S env q.body
    return ⟨201, .ok [], ""⟩
  else ofExcept (.error ⟨"method not allowed", 405⟩)

/-- `json.Encode` of the slice, which is nil if nothing was appended to it. -/
def encodeIndices : List ℤ → String
  | [] => "null\n"
  | is => "[" ++ ",".intercalate (is.map toString) ++ "]\n"

def handleShardMeta (listing : Option Err) (commitmentHex : String) (f : NodeFiles) :
    Except HttpError HttpResponse :=
  match decodeString commitmentHex, listing with
  | none, _ => .error (badRequest "invalid commitment")
  | some _, some _ => .error ⟨"internal error", 500⟩
  | some commitment, none => .ok ⟨200, .ok (utf8 (encodeIndices (indices f commitment))), ""⟩

def shardMeta (listing : Option Err) (q : HttpRequest) : Handling HttpResponse := fun f =>
  ofExcept (handleShardMeta listing q.commitment f) f

/-- The limiter and the files. -/
abbrev Node : Type := ShardRateLimiter × NodeFiles

/-- What is behind the limiter. -/
def endpoint (a : Arrival) : Handling HttpResponse :=
  match a.request.route with
  | .shard => authMiddleware (shardMethods S a.env) a.request
  | .shardmeta => shardMeta a.listing a.request
  | .unknown => ofExcept (.error ⟨"404 page not found", 404⟩)

/-- The multiplexer answers itself if it knows no endpoint. -/
def handle (a : Arrival) : Call Node HttpError HttpResponse :=
  if a.request.route = .unknown then zoom Prod.snd (fun w t => (w.1, t)) (endpoint S a)
  else rateLimitMiddleware (fun _ => endpoint S a) a.request.client

/-- The answer, and what is left. A panic would close the connection. -/
def reply {τ : Type} (w : τ) : Outcome τ HttpError HttpResponse → HttpResponse × τ
  | .ok r w => (r, w)
  | .err e w => (httpError e.message e.status, w)
  | .panic _ => (⟨0, .ok [], ""⟩, w)

def respond (w : Node) (a : Arrival) : HttpResponse × Node := reply w (handle S a w)

/-- The server with the log of its answers. -/
structure Served where
  node : Node
  log : List (Arrival × HttpResponse)

def step (x : Served) (a : Arrival) : Served :=
  ⟨(respond S x.node a).2, x.log ++ [(a, (respond S x.node a).1)]⟩

def minute : ℤ := 60 * 10 ^ 9

/-- `NewShardDistributor` over an empty directory. -/
def initial : Served := ⟨(newShardRateLimiter 60 minute, ⟨∅, ∅, []⟩), []⟩

def after (arrivals : List Arrival) : Served := run (step S) initial arrivals

end Endpoints

/-! One request. -/

section Requests
variable {S : ServerLibs} {f : NodeFiles} {a : Arrival}

/-- Errors of the handlers are none of the limiter's. -/
def Handled (e : HttpError) : Prop := e.status ≠ 429 ∧ e.status ≠ 201

theorem badRequest_handled (message : String) : Handled (badRequest message) :=
  ⟨(by decide : 400 ≠ 429), (by decide : 400 ≠ 201)⟩

theorem forbidden_handled (message : String) : Handled (forbidden message) :=
  ⟨(by decide : 403 ≠ 429), (by decide : 403 ≠ 201)⟩

theorem hexField_handled {text message : String} {wellFormed : List UInt8 → Bool} (e : HttpError)
    (h : hexField text wellFormed message = .error e) : Handled e := by
  unfold hexField at h
  split at h
  · cases h
    exact badRequest_handled message
  · split_ifs at h
    cases h
    exact badRequest_handled message

theorem storeUpload_raises (env : Environment) (c : List UInt8) (i : ℤ) (data : List UInt8) :
    Raises Handled (storeUpload env c i data) := by
  intro f e t h
  unfold storeUpload at h
  cases hs : storeShard env c i data f with
  | ok u t' => rw [hs] at h; cases h
  | panic r => rw [hs] at h; cases h
  | err e' t' =>
      rw [hs] at h
      cases h
      exact ⟨(by decide : 500 ≠ 429), (by decide : 500 ≠ 201)⟩

theorem mapError_handled {ε α : Type} {x : Except ε α} {g : ε → HttpError}
    (hg : ∀ e, Handled (g e)) (e : HttpError) (h : x.mapError g = .error e) : Handled e := by
  cases x with
  | ok a => cases h
  | error e' =>
      cases h
      exact hg e'

theorem handlePostShard_raises (env : Environment) (body : Except Err (List UInt8)) :
    Raises Handled (handlePostShard S env body) := by
  unfold handlePostShard
  refine .bind (.ofExcept (mapError_handled fun _ => badRequest_handled _)) fun body => ?_
  refine .bind (.lookup (badRequest_handled _)) fun upload => ?_
  refine .bind (.ofExcept hexField_handled) fun commitment => ?_
  refine .bind (.ofExcept hexField_handled) fun data => ?_
  refine .bind (.ofExcept hexField_handled) fun root => ?_
  refine .bind (.ofExcept hexField_handled) fun proof => ?_
  refine .bind (.require (badRequest_handled _)) fun _ => ?_
  refine .bind (.ite (.pure _) ?_) fun _ => ?_
  · refine .bind (.ofExcept hexField_handled) fun key => ?_
    refine .bind (.require (badRequest_handled _)) fun _ => ?_
    exact .bind (.ofExcept hexField_handled) fun sig => .require (forbidden_handled _)
  · refine .bind (.require (badRequest_handled _)) fun _ => ?_
    refine .bind (.ofExcept (mapError_handled fun _ => forbidden_handled _)) fun _ => ?_
    exact storeUpload_raises env commitment upload.index data

theorem handlePostShard_noPanic (env : Environment) (body : Except Err (List UInt8)) :
    NoPanic (handlePostShard S env body) := by
  have hstore : ∀ c i d, NoPanic (storeUpload env c i d) := by
    intro c i d f r h
    have hstored : NoPanic (storeShard env c i d) :=
      .bind (.require _ _) fun _ => .bind (.require _ _) fun _ => .bind (.require _ _) fun _ =>
        .bind (.ofExcept _) fun _ => .modifyStore _
    unfold storeUpload at h
    cases hs : storeShard env c i d f with
    | ok u t' => rw [hs] at h; cases h
    | panic r' => exact hstored f r' hs
    | err e' t' => rw [hs] at h; cases h
  refine .bind (.ofExcept _) fun body => .bind (.lookup _ _) fun upload => ?_
  refine .bind (.ofExcept _) fun commitment => .bind (.ofExcept _) fun data => ?_
  refine .bind (.ofExcept _) fun root => .bind (.ofExcept _) fun proof => ?_
  refine .bind (.require _ _) fun _ => .bind ?_ fun _ => .bind (.require _ _) fun _ => ?_
  · exact .ite (.pure _) (.bind (.ofExcept _) fun _ => .bind (.require _ _) fun _ =>
      .bind (.ofExcept _) fun _ => .require _ _)
  · exact .bind (.ofExcept _) fun _ => hstore _ _ _

theorem endpoint_noPanic (S : ServerLibs) (a : Arrival) : NoPanic (endpoint S a) := by
  unfold endpoint
  split
  · refine .bind (.require _ _) fun _ => .bind (.require _ _) fun _ => .ite (.gets _) ?_
    exact .ite (.bind (handlePostShard_noPanic _ _) fun _ => .pure _) (.ofExcept _)
  · exact fun f r h => NoPanic.ofExcept _ f r h
  · exact .ofExcept _

variable (S) in
/-- An upload of that shard that the checks accept. -/
structure Creates (a : Arrival) (c : List UInt8) (i : ℤ) (data : List UInt8) : Prop where
  route : a.request.route = .shard
  method : a.request.method = "POST"
  authorization : "Bearer ".utf8ByteSize < a.request.authorization.utf8ByteSize
  accepted : ∃ body upload root proof, a.request.body = .ok body ∧
    Accepts S body upload c data root proof ∧ upload.index = i

theorem Creates.unique {c c' data data' : List UInt8} {i i' : ℤ} (h : Creates S a c i data)
    (h' : Creates S a c' i' data') : (c, i) = (c', i') ∧ data = data' := by
  obtain ⟨body, upload, root, proof, hbody, haccepts, rfl⟩ := h.accepted
  obtain ⟨body', upload', root', proof', hbody', haccepts', rfl⟩ := h'.accepted
  obtain rfl := Except.ok.inj (hbody.symm.trans hbody')
  obtain rfl := Option.some.inj (haccepts.parsed.symm.trans haccepts'.parsed)
  rw [Option.some.inj (haccepts.commitmentHex.symm.trans haccepts'.commitmentHex),
    Option.some.inj (haccepts.dataHex.symm.trans haccepts'.dataHex)]
  exact ⟨rfl, rfl⟩

theorem handleGetShard_status (commitmentHex indexStr : String) (f : NodeFiles) :
    (handleGetShard commitmentHex indexStr f).status ≠ 201 ∧
      (handleGetShard commitmentHex indexStr f).status ≠ 429 := by
  unfold handleGetShard
  split
  · exact ⟨(by decide : 400 ≠ 201), (by decide : 400 ≠ 429)⟩
  · split
    · exact ⟨(by decide : 400 ≠ 201), (by decide : 400 ≠ 429)⟩
    · split
      · exact ⟨(by decide : 404 ≠ 201), (by decide : 404 ≠ 429)⟩
      · exact ⟨(by decide : 200 ≠ 201), (by decide : 200 ≠ 429)⟩

theorem handleShardMeta_error {listing : Option Err} {commitmentHex : String} {e : HttpError}
    (h : handleShardMeta listing commitmentHex f = .error e) : Handled e := by
  unfold handleShardMeta at h
  split at h
  · cases h
    exact badRequest_handled _
  · cases h
    exact ⟨(by decide : 500 ≠ 429), (by decide : 500 ≠ 201)⟩
  · cases h

theorem handleShardMeta_ok {listing : Option Err} {commitmentHex : String} {r : HttpResponse} :
    handleShardMeta listing commitmentHex f = .ok r ↔
      ∃ c, decodeString commitmentHex = some c ∧ listing = none ∧
        r = ⟨200, .ok (utf8 (encodeIndices (indices f c))), ""⟩ := by
  unfold handleShardMeta
  cases decodeString commitmentHex with
  | none => simp
  | some c =>
      cases listing with
      | some e => simp
      | none => simp [eq_comm]

theorem shardMeta_outcome (listing : Option Err) (q : HttpRequest) (f : NodeFiles) :
    (∃ e, Handled e ∧ shardMeta listing q f = .err e f) ∨
      ∃ c, decodeString q.commitment = some c ∧ listing = none ∧
        shardMeta listing q f = .ok ⟨200, .ok (utf8 (encodeIndices (indices f c))), ""⟩ f := by
  unfold shardMeta
  cases h : handleShardMeta listing q.commitment f with
  | error e => exact .inl ⟨e, handleShardMeta_error h, rfl⟩
  | ok r =>
      obtain ⟨c, hc, hlisting, rfl⟩ := handleShardMeta_ok.mp h
      exact .inr ⟨c, hc, hlisting, rfl⟩

theorem shardMethods_raises (S : ServerLibs) (env : Environment) (q : HttpRequest) :
    Raises Handled (shardMethods S env q) := by
  refine .ite (.gets _) (.ite (.bind (handlePostShard_raises _ _) fun _ => .pure _) ?_)
  refine .ofExcept fun e he => ?_
  cases he
  exact ⟨(by decide : 405 ≠ 429), (by decide : 405 ≠ 201)⟩

theorem shardMethods_clean (S : ServerLibs) (env : Environment) (q : HttpRequest) :
    Clean (shardMethods S env q) := by
  intro f e t h
  unfold shardMethods at h
  split_ifs at h
  · cases h
  · rcases (bind_err _ _).mp h with herr | ⟨_, _, -, hpure⟩
    · exact handlePostShard_clean q.body f e t herr
    · cases hpure
  · cases h
    rfl

/-- A method that returns has read a shard or stored one. -/
theorem shardMethods_ok {env : Environment} {q : HttpRequest} {r : HttpResponse} {t : NodeFiles}
    (h : shardMethods S env q f = .ok r t) :
    q.method = "GET" ∧ r = handleGetShard q.commitment q.index f ∧ t = f ∨
      q.method = "POST" ∧ r.status = 201 ∧ ∃ body upload c data root proof, q.body = .ok body ∧
        Accepts S body upload c data root proof ∧
        t = { f with shards := f.shards.set (c, upload.index) data } := by
  unfold shardMethods at h
  split_ifs at h with hget hpost
  · obtain ⟨rfl, rfl⟩ := (gets_ok _).mp h
    exact .inl ⟨hget, rfl, rfl⟩
  · obtain ⟨u, t', hstored, hpure⟩ := (bind_ok _ _).mp h
    obtain ⟨rfl, rfl⟩ := (pure_ok _ _).mp hpure
    cases hbody : q.body with
    | error e =>
        rw [hbody] at hstored
        cases hstored
    | ok body =>
        rw [hbody] at hstored
        obtain ⟨upload, c, data, root, proof, haccepts, -, rfl⟩ := handlePostShard_ok.mp hstored
        exact .inr ⟨hpost, rfl, body, upload, c, data, root, proof, rfl, haccepts, rfl⟩
  · cases h

theorem endpoint_shard (h : a.request.route = .shard) :
    endpoint S a = authMiddleware (shardMethods S a.env) a.request := by
  rw [endpoint, h]

theorem endpoint_shardmeta (h : a.request.route = .shardmeta) :
    endpoint S a = shardMeta a.listing a.request := by
  rw [endpoint, h]

theorem authMiddleware_ok {α : Type} {next : HttpRequest → Handling α} {q : HttpRequest} {x : α}
    {t : NodeFiles} : authMiddleware next q f = .ok x t ↔
      "Bearer ".utf8ByteSize < q.authorization.utf8ByteSize ∧ next q f = .ok x t := by
  simp only [authMiddleware, bind_ok, require_ok, decide_eq_true_eq]
  constructor
  · rintro ⟨_, _, ⟨-, rfl⟩, _, _, ⟨hlong, rfl⟩, h⟩
    exact ⟨hlong, h⟩
  · rintro ⟨hlong, h⟩
    refine ⟨(), f, ⟨?_, rfl⟩, (), f, ⟨hlong, rfl⟩, h⟩
    intro hempty
    rw [hempty] at hlong
    exact absurd hlong (by decide)

/-- An error of an endpoint is its own, and nothing is changed. -/
theorem endpoint_error {e : HttpError} {t : NodeFiles} (h : endpoint S a f = .err e t) :
    Handled e ∧ t = f := by
  cases hroute : a.request.route with
  | shard =>
      have hauth : ∀ message, Handled (unauthorized message) := fun _ =>
        ⟨(by decide : 401 ≠ 429), (by decide : 401 ≠ 201)⟩
      rw [endpoint_shard hroute] at h
      constructor
      · exact Raises.bind (.require (hauth _)) (fun _ => .bind (.require (hauth _)) fun _ =>
          shardMethods_raises S a.env a.request) f e t h
      · exact Clean.bind (.require _ _) (fun _ => .bind (.require _ _) fun _ =>
          shardMethods_clean S a.env a.request) f e t h
  | shardmeta =>
      rw [endpoint_shardmeta hroute] at h
      rcases shardMeta_outcome a.listing a.request f with ⟨e', he, hmeta⟩ | ⟨c, -, -, hmeta⟩
      · rw [hmeta] at h
        cases h
        exact ⟨he, rfl⟩
      · rw [hmeta] at h
        cases h
  | unknown =>
      rw [endpoint, hroute] at h
      cases h
      exact ⟨⟨(by decide : 404 ≠ 429), (by decide : 404 ≠ 201)⟩, rfl⟩

/-- What is behind the limiter stores an upload and answers 201, or changes nothing. -/
theorem endpoint_cases (S : ServerLibs) (f : NodeFiles) (a : Arrival) :
    ((reply f (endpoint S a f)).1.status = 201 ∧ ∃ c i data, Creates S a c i data ∧
        (reply f (endpoint S a f)).2 = { f with shards := f.shards.set (c, i) data }) ∨
      ((reply f (endpoint S a f)).1.status ≠ 201 ∧ (reply f (endpoint S a f)).1.status ≠ 429 ∧
        (reply f (endpoint S a f)).2 = f) := by
  cases h : endpoint S a f with
  | panic r => exact absurd h (endpoint_noPanic S a f r)
  | err e t =>
      obtain ⟨⟨hlimit, hcreated⟩, rfl⟩ := endpoint_error h
      exact .inr ⟨hcreated, hlimit, rfl⟩
  | ok r t =>
      cases hroute : a.request.route with
      | shard =>
          rw [endpoint_shard hroute, authMiddleware_ok] at h
          obtain ⟨hlong, h⟩ := h
          rcases shardMethods_ok h with ⟨-, rfl, rfl⟩ | ⟨hpost, hstatus, body, upload, c, data,
            root, proof, hbody, haccepts, rfl⟩
          · exact .inr ⟨(handleGetShard_status _ _ _).1, (handleGetShard_status _ _ _).2, rfl⟩
          · exact .inl ⟨hstatus, c, upload.index, data, ⟨hroute, hpost, hlong, body, upload, root,
              proof, hbody, haccepts, rfl⟩, rfl⟩
      | shardmeta =>
          rw [endpoint_shardmeta hroute] at h
          rcases shardMeta_outcome a.listing a.request f with ⟨e', -, hmeta⟩ | ⟨c, -, -, hmeta⟩
          · rw [hmeta] at h
            cases h
          · rw [hmeta] at h
            cases h
            exact .inr ⟨(by decide : 200 ≠ 201), (by decide : 200 ≠ 429), rfl⟩
      | unknown =>
          rw [endpoint, hroute] at h
          cases h

/-! The limiter in front of it. -/

/-- A request to an endpoint passes the limiter or is answered by it. -/
theorem respond_limited (w : Node) (h : a.request.route ≠ .unknown) : respond S w a =
    if (w.1.allow a.request.client.time a.request.client.remoteAddr.text).1 then
      ((reply w.2 (endpoint S a w.2)).1,
        (w.1.allow a.request.client.time a.request.client.remoteAddr.text).2,
        (reply w.2 (endpoint S a w.2)).2)
    else
      (httpError tooManyRequests.message tooManyRequests.status,
        (w.1.allow a.request.client.time a.request.client.remoteAddr.text).2, w.2) := by
  have hask : askLimiter a.request.client w =
    .ok (w.1.allow a.request.client.time a.request.client.remoteAddr.text).1
      ((w.1.allow a.request.client.time a.request.client.remoteAddr.text).2, w.2) := rfl
  rw [respond, handle, if_neg h, rateLimitMiddleware, bind_of_ok hask]
  split_ifs with hallowed
  · rw [require_bind hallowed, zoom]
    cases hend : endpoint S a w.2 with
    | ok r t => rfl
    | err e t => rfl
    | panic r => exact absurd hend (endpoint_noPanic S a _ r)
  · rw [(bind_err _ _).mpr (.inl (by rw [require, if_neg hallowed]))]
    rfl

theorem respond_unknown (w : Node) (h : a.request.route = .unknown) :
    respond S w a = (httpError "404 page not found" 404, w) := by
  rw [respond, handle, if_pos h, zoom, endpoint, h]
  rfl

end Requests

/-! What is found is what was last created. -/

section Logs
variable {S : ServerLibs} {log : List (Arrival × HttpResponse)} {a : Arrival} {r : HttpResponse}
  {c data : List UInt8} {i : ℤ}

variable (S) in
/-- The last upload of that shard that was answered with 201. -/
def LastCreated (log : List (Arrival × HttpResponse)) (c : List UInt8) (i : ℤ)
    (data : List UInt8) : Prop :=
  ∃ before a r rest, log = before ++ (a, r) :: rest ∧ r.status = 201 ∧ Creates S a c i data ∧
    ∀ e ∈ rest, e.2.status = 201 → ∀ data', ¬ Creates S e.1 c i data'

theorem lastCreated_nil : ¬ LastCreated S [] c i data := by
  rintro ⟨before, a, r, rest, hlog, -⟩
  exact absurd hlog (by simp)

theorem lastCreated_snoc_of_creates (hstatus : r.status = 201) {data' : List UInt8}
    (h : Creates S a c i data') :
    LastCreated S (log ++ [(a, r)]) c i data ↔ data = data' := by
  constructor
  · rintro ⟨before, b, s, rest, hlog, -, hb, hlast⟩
    rcases List.eq_nil_or_concat rest with rfl | ⟨rest', e, rfl⟩
    · obtain ⟨-, he⟩ := List.append_inj' hlog rfl
      obtain ⟨rfl, -⟩ := Prod.mk.inj (List.cons.inj he).1
      exact (hb.unique h).2
    · -- otherwise the new entry would be a later one
      rw [List.concat_eq_append, ← List.cons_append, ← List.append_assoc] at hlog
      obtain ⟨-, he⟩ := List.append_inj' hlog rfl
      obtain rfl := (List.cons.inj he).1
      exact absurd h (hlast (a, r) (by simp) hstatus data')
  · rintro rfl
    exact ⟨log, a, r, [], rfl, hstatus, h, by simp⟩

theorem lastCreated_snoc_of_not (h : r.status = 201 → ∀ data', ¬ Creates S a c i data') :
    LastCreated S (log ++ [(a, r)]) c i data ↔ LastCreated S log c i data := by
  constructor
  · rintro ⟨before, b, s, rest, hlog, hstatus, hb, hlast⟩
    rcases List.eq_nil_or_concat rest with rfl | ⟨rest', e, rfl⟩
    · obtain ⟨-, he⟩ := List.append_inj' hlog rfl
      obtain ⟨rfl, rfl⟩ := Prod.mk.inj (List.cons.inj he).1
      exact absurd hb (h hstatus data)
    · rw [List.concat_eq_append, ← List.cons_append, ← List.append_assoc] at hlog
      obtain ⟨rfl, -⟩ := List.append_inj' hlog rfl
      exact ⟨before, b, s, rest', rfl, hstatus, hb, fun e' he' => hlast e' (by simp [he'])⟩
  · rintro ⟨before, b, s, rest, rfl, hstatus, hb, hlast⟩
    refine ⟨before, b, s, rest ++ [(a, r)], by simp, hstatus, hb, fun e he => ?_⟩
    rcases List.mem_append.mp he with he | he
    · exact hlast e he
    · obtain rfl := List.mem_singleton.mp he
      exact h

/-- The files say what the log says. -/
structure Faithful (S : ServerLibs) (x : Served) : Prop where
  shards : ∀ c i data, x.node.2.shards.get (c, i) = some data ↔ LastCreated S x.log c i data
  index : ∀ c i data, x.node.2.shards.get (c, i) = some data → 0 ≤ i ∧ i < erasureTotalShards
  signatures : x.node.2.signatures = ∅

theorem initial_faithful (S : ServerLibs) : Faithful S initial where
  shards c i data := iff_of_false (fun h => by cases h) lastCreated_nil
  index c i data h := by cases h
  signatures := rfl

/-- A request that changes no file and is not answered with 201. -/
theorem Faithful.keep {x : Served} (h : Faithful S x) {w : Node} (hfiles : w.2 = x.node.2)
    (hstatus : r.status ≠ 201) : Faithful S ⟨w, x.log ++ [(a, r)]⟩ where
  shards c i data := by
    rw [lastCreated_snoc_of_not fun hcreated => absurd hcreated hstatus, ← h.shards, ← hfiles]
  index c i data hget := h.index c i data (hfiles ▸ hget)
  signatures := hfiles ▸ h.signatures

theorem Faithful.create {x : Served} (h : Faithful S x) {w : Node} (hstatus : r.status = 201)
    (hcreates : Creates S a c i data)
    (hfiles : w.2 = { x.node.2 with shards := x.node.2.shards.set (c, i) data }) :
    Faithful S ⟨w, x.log ++ [(a, r)]⟩ where
  shards c' i' data' := by
    rw [hfiles, Store.get_set]
    split_ifs with hkey
    · obtain ⟨rfl, rfl⟩ := Prod.mk.inj hkey
      rw [lastCreated_snoc_of_creates hstatus hcreates, Option.some.injEq, eq_comm]
    · have hother : r.status = 201 → ∀ d, ¬ Creates S a c' i' d :=
        fun _ d hd => hkey (hd.unique hcreates).1
      rw [lastCreated_snoc_of_not hother, h.shards]
  index c' i' data' hget := by
    rw [hfiles, Store.get_set] at hget
    split_ifs at hget with hkey
    · obtain ⟨rfl, rfl⟩ := Prod.mk.inj hkey
      obtain ⟨body, upload, root, proof, -, haccepts, rfl⟩ := hcreates.accepted
      exact haccepts.index
    · exact h.index c' i' data' hget
  signatures := by
    rw [hfiles]
    exact h.signatures

theorem Faithful.step {x : Served} (h : Faithful S x) (a : Arrival) : Faithful S (step S x a) := by
  by_cases hroute : a.request.route = .unknown
  · rw [ShardEndpoints.step, respond_unknown x.node hroute]
    exact h.keep rfl (by decide : 404 ≠ 201)
  · rw [ShardEndpoints.step, respond_limited x.node hroute]
    split_ifs
    · rcases endpoint_cases S x.node.2 a with ⟨hstatus, c, i, data, hcreates, hfiles⟩ |
        ⟨hstatus, -, hfiles⟩
      · exact h.create hstatus hcreates hfiles
      · exact h.keep hfiles hstatus
    · exact h.keep rfl (by decide : 429 ≠ 201)

theorem after_faithful (S : ServerLibs) (arrivals : List Arrival) : Faithful S (after S arrivals) :=
  run_invariant (Faithful S) (fun _ => True) (fun _ a _ h => h.step a) arrivals initial
    (initial_faithful S) fun _ _ => trivial

theorem handleGetShard_found {commitmentHex indexStr : String} {f : NodeFiles}
    (hc : decodeString commitmentHex = some c) :
    (handleGetShard commitmentHex indexStr f).status = 200 ∧
        (handleGetShard commitmentHex indexStr f).body = .ok data ↔
      ∃ i, atoi indexStr = some i ∧ f.shards.get (c, i) = some data := by
  have h400 : ∀ message, (httpError message 400).status ≠ 200 := fun _ => (by decide : 400 ≠ 200)
  have h404 : ∀ message, (httpError message 404).status ≠ 200 := fun _ => (by decide : 404 ≠ 200)
  simp only [handleGetShard, hc]
  cases atoi indexStr with
  | none => simp [h400]
  | some i =>
      cases hget : f.shards.get (c, i) with
      | none => simp [h404, hget]
      | some stored => simp [hget]

/-- An answer that is not the limiter's is that of the endpoint. -/
theorem respond_eq {w : Node} (hroute : a.request.route ≠ .unknown)
    (hlimit : (respond S w a).1.status ≠ 429) :
    (respond S w a).1 = (reply w.2 (endpoint S a w.2)).1 := by
  rw [respond_limited w hroute] at hlimit ⊢
  split_ifs at hlimit ⊢ with hallowed
  · rfl
  · exact absurd rfl hlimit

end Logs

section Answers
variable (S : ServerLibs) (arrivals : List Arrival) (a : Arrival) (c : List UInt8)

/-- Whatever has been asked before, a shard that is read is the last one that was created
under its commitment and index. -/
theorem get_answers_last_created (hroute : a.request.route = .shard)
    (hmethod : a.request.method = "GET")
    (hauth : "Bearer ".utf8ByteSize < a.request.authorization.utf8ByteSize)
    (hc : decodeString a.request.commitment = some c)
    (hlimit : (respond S (after S arrivals).node a).1.status ≠ 429) (data : List UInt8) :
    (respond S (after S arrivals).node a).1.status = 200 ∧
        (respond S (after S arrivals).node a).1.body = .ok data ↔
      ∃ i, atoi a.request.index = some i ∧ LastCreated S (after S arrivals).log c i data := by
  have hget : endpoint S a (after S arrivals).node.2 = .ok
      (handleGetShard a.request.commitment a.request.index (after S arrivals).node.2)
      (after S arrivals).node.2 := by
    rw [endpoint_shard hroute, authMiddleware_ok, shardMethods, if_pos hmethod]
    exact ⟨hauth, rfl⟩
  rw [respond_eq (by rw [hroute]; decide) hlimit, hget, reply, handleGetShard_found hc]
  simp only [(after_faithful S arrivals).shards]

/-- The other endpoint lists the indices under which one was created, in ascending order. -/
theorem shardmeta_lists_created (hroute : a.request.route = .shardmeta)
    (hc : decodeString a.request.commitment = some c) (hlisting : a.listing = none)
    (hlimit : (respond S (after S arrivals).node a).1.status ≠ 429) :
    ∃ is : List ℤ, is.Pairwise (· < ·) ∧
      (∀ i, i ∈ is ↔ ∃ data, LastCreated S (after S arrivals).log c i data) ∧
      (respond S (after S arrivals).node a).1 = ⟨200, .ok (utf8 (encodeIndices is)), ""⟩ := by
  have hfaithful := after_faithful S arrivals
  refine ⟨indices (after S arrivals).node.2 c, indices_sorted _ _, fun i => ?_, ?_⟩
  · rw [mem_indices, Option.isSome_iff_exists]
    simp only [← hfaithful.shards]
    constructor
    · exact fun h => h.2
    · rintro ⟨data, h⟩
      exact ⟨hfaithful.index c i data h, data, h⟩
  · have hok : handleShardMeta a.listing a.request.commitment (after S arrivals).node.2 =
        .ok ⟨200, .ok (utf8 (encodeIndices (indices (after S arrivals).node.2 c))), ""⟩ :=
      handleShardMeta_ok.mpr ⟨c, hc, hlisting, rfl⟩
    rw [respond_eq (by rw [hroute]; decide) hlimit, endpoint_shardmeta hroute, shardMeta, hok]
    rfl

end Answers

/-! How much is answered. -/

section Rates
variable (S : ServerLibs)

def limited (a : Arrival) : Bool := decide (a.request.route ≠ .unknown)

/-- An entry of the log that is no answer of the limiter. -/
def passes (e : Arrival × HttpResponse) : Bool := limited e.1 && e.2.status != 429

/-- The requests that the limiter sees. -/
def clients (arrivals : List Arrival) : List Request :=
  (arrivals.filter limited).map fun a => a.request.client

/-- The limiter is that of a server which only notes what passes it. -/
theorem after_limiter (arrivals : List Arrival) :
    run serve (newShardRateLimiter 60 minute, []) (clients arrivals) =
      ((after S arrivals).node.1,
        ((after S arrivals).log.filter passes).map fun e => e.1.request.client) := by
  induction arrivals using List.reverseRecOn with
  | nil => rfl
  | append_singleton arrivals a ih =>
      have hafter : after S (arrivals ++ [a]) = step S (after S arrivals) a := run_snoc ..
      by_cases hroute : a.request.route = .unknown
      · have hlimited : limited a = false := decide_eq_false (not_not.mpr hroute)
        have hclients : clients (arrivals ++ [a]) = clients arrivals := by
          simp [clients, List.filter_append, hlimited]
        rw [hclients, ih, hafter, step, respond_unknown _ hroute]
        simp [List.filter_append, passes, hlimited]
      · have hlimited : limited a = true := decide_eq_true hroute
        have hclients : clients (arrivals ++ [a]) = clients arrivals ++ [a.request.client] := by
          simp [clients, List.filter_append, hlimited]
        rw [hclients, run_snoc, ih, serve_eq, hafter, step, respond_limited _ hroute]
        split_ifs with hallowed
        · have hstatus : (reply (after S arrivals).node.2
              (endpoint S a (after S arrivals).node.2)).1.status ≠ 429 := by
            rcases endpoint_cases S (after S arrivals).node.2 a with ⟨hcreated, -⟩ | ⟨-, h, -⟩
            · rw [hcreated]
              decide
            · exact h
          simp [List.filter_append, passes, hlimited, hstatus]
        · have htold :
              (httpError tooManyRequests.message tooManyRequests.status).status = 429 := rfl
          simp [List.filter_append, passes, htold]

/-- Over both endpoints, an address gets at most 119 answers in a minute that are not the
limiter's: the rest of one window and the whole of the next. -/
theorem answered_in_a_minute (arrivals : List Arrival)
    (hsorted : arrivals.Pairwise fun p q => p.request.client.time ≤ q.request.client.time)
    (addr : RemoteAddr) (t t' : ℤ) (hlength : t' - t ≤ minute) :
    (after S arrivals).log.countP (fun e => passes e && decide
      (e.1.request.client.remoteAddr = addr ∧ t ≤ e.1.request.client.time ∧
        e.1.request.client.time ≤ t')) ≤ 119 := by
  have hclients : (clients arrivals).Pairwise fun p q => p.time ≤ q.time :=
    List.pairwise_map.mpr (hsorted.filter _)
  have hbound : (passedBy (passed 60 minute (clients arrivals)) addr t t' : ℤ) ≤
      carried 60 minute + burst 60 := passedBy_le hlength addr hclients
  have hlog : passed 60 minute (clients arrivals) =
      ((after S arrivals).log.filter passes).map fun e => e.1.request.client := by
    rw [passed, after_limiter S]
  have hcount : carried 60 minute + burst 60 = 119 := by decide
  rw [hcount, hlog, passedBy, List.countP_map, List.countP_filter] at hbound
  have hsame : (after S arrivals).log.countP (fun e => passes e && decide
      (e.1.request.client.remoteAddr = addr ∧ t ≤ e.1.request.client.time ∧
        e.1.request.client.time ≤ t')) ≤ ((119 : ℕ) : ℤ) := by
    refine le_trans (le_of_eq ?_) hbound
    refine congrArg _ (List.countP_congr fun e _ => ?_)
    simp [and_comm]
  exact_mod_cast hsame

end Rates

/-! A shard is uploaded, read and listed. -/

section Sample

theorem no_colon : ':' ∉ "4000".toList := by decide

def peer : RemoteAddr := ⟨"10.0.0.1", "4000", no_colon⟩

def posted : Arrival :=
  ⟨⟨⟨0, peer⟩, .shard, "POST", "Bearer node", "", "", .ok (marshalUpload forgedUpload)⟩, calmEnv,
    none⟩

def fetched : Arrival :=
  ⟨⟨⟨1, peer⟩, .shard, "GET", "Bearer node", encodeToString onesCommitment, "0", .ok []⟩, calmEnv,
    none⟩

def listed : Arrival :=
  ⟨⟨⟨1, peer⟩, .shardmeta, "GET", "", encodeToString onesCommitment, "", .ok []⟩, calmEnv, none⟩

theorem posted_creates : Creates plainServer posted onesCommitment 0 [2] where
  route := rfl
  method := rfl
  authorization := by decide
  accepted := ⟨_, _, _, _, rfl, forgedUpload_accepts, rfl⟩

theorem posted_answer : ∃ f, respond plainServer (initial : Served).node posted =
    (⟨201, .ok [], ""⟩, (newShardRateLimiter 60 minute).setBucket peer.text ⟨1, minute⟩, f) := by
  have hposted : endpoint plainServer posted ⟨∅, ∅, []⟩ = .ok ⟨201, .ok [], ""⟩
      ⟨(∅ : Store _ _).set (onesCommitment, 0) [2], ∅, []⟩ := by
    have hstored : handlePostShard plainServer calmEnv (.ok (marshalUpload forgedUpload))
        ⟨∅, ∅, []⟩ = .ok () ⟨(∅ : Store _ _).set (onesCommitment, 0) [2], ∅, []⟩ :=
      handlePostShard_ok.mpr ⟨_, _, _, _, _, forgedUpload_accepts, rfl, rfl⟩
    rw [endpoint_shard rfl, authMiddleware_ok, shardMethods, if_neg (by decide),
      if_pos (show posted.request.method = "POST" from rfl)]
    exact ⟨by decide, bind_of_ok hstored⟩
  rw [respond_limited _ (by decide)]
  exact ⟨_, by rw [if_pos (by decide), initial, hposted]; rfl⟩

theorem posted_after : (after plainServer [posted]).log = [(posted, ⟨201, .ok [], ""⟩)] ∧
    (after plainServer [posted]).node.1 =
      (newShardRateLimiter 60 minute).setBucket peer.text ⟨1, minute⟩ := by
  obtain ⟨f, hanswer⟩ := posted_answer
  have hafter : after plainServer [posted] = step plainServer initial posted := rfl
  rw [hafter, step, hanswer]
  exact ⟨rfl, rfl⟩

theorem passes_limiter {a : Arrival} (hroute : a.request.route ≠ .unknown)
    (hclient : a.request.client = ⟨1, peer⟩) :
    (respond plainServer (after plainServer [posted]).node a).1.status ≠ 429 := by
  rw [respond_limited _ hroute, posted_after.2, hclient, if_pos (by decide)]
  rcases endpoint_cases plainServer (after plainServer [posted]).node.2 a with
    ⟨hstatus, -⟩ | ⟨-, hstatus, -⟩
  · rw [hstatus]
    decide
  · exact hstatus

theorem posted_last :
    LastCreated plainServer (after plainServer [posted]).log onesCommitment 0 [2] :=
  ⟨[], posted, _, [], posted_after.1, rfl, posted_creates, by simp⟩

theorem posted_is_fetched :
    (respond plainServer (after plainServer [posted]).node fetched).1.status = 200 ∧
      (respond plainServer (after plainServer [posted]).node fetched).1.body = .ok [2] :=
  (get_answers_last_created plainServer [posted] fetched onesCommitment rfl rfl (by decide)
    (decodeString_encodeToString _) (passes_limiter (by decide) rfl) [2]).mpr
    ⟨0, by decide, posted_last⟩

theorem posted_is_listed : ∃ is : List ℤ, is.Pairwise (· < ·) ∧
    (∀ i, i ∈ is ↔ ∃ data, LastCreated plainServer (after plainServer [posted]).log
      onesCommitment i data) ∧
    (respond plainServer (after plainServer [posted]).node listed).1 =
      ⟨200, .ok (utf8 (encodeIndices is)), ""⟩ :=
  shardmeta_lists_created plainServer [posted] listed onesCommitment rfl
    (decodeString_encodeToString _) rfl (passes_limiter (by decide) rfl)

theorem many_listings_answered :
    (after plainServer (List.replicate 200 listed)).log.countP (fun e => passes e && decide
      (e.1.request.client.remoteAddr = peer ∧ 0 ≤ e.1.request.client.time ∧
        e.1.request.client.time ≤ minute)) ≤ 119 :=
  answered_in_a_minute plainServer (List.replicate 200 listed)
    (List.pairwise_replicate.mpr (.inr (le_refl _))) peer 0 minute (by decide)

end Sample

end Zytherion.ShardEndpoints
