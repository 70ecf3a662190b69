import Mathlib.Data.List.Basic

namespace Fendermint.Router

/-! The router of `ProxyCommands::Start`: seven `warp::path!` routes, each with a method filter,
joined by `or` in a fixed order, and wrapped in a CORS filter. -/

inductive Handler
  | health
  | osAdd
  | osDelete
  | osGet
  | osList
  | accPush
  | accRoot
  deriving DecidableEq

/-- A segment of a `warp::path!`: a literal, or a parameter parsed as a `String` or a `Cid`. -/
inductive Segment
  | lit (s : String)
  | string
  | cid
  deriving DecidableEq

/-- A route: its path, method, the header it reads, if any, and its handler. -/
structure Route where
  path : List Segment
  method : String
  header : Option String
  handler : Handler
  deriving DecidableEq

/-- The header the write routes read their gas limit from. -/
def gasLimitHeader : String := "X-DataRepo-GasLimit"

def healthRoute : Route := ⟨[.lit "health"], "GET", none, .health⟩

def addRoute : Route := ⟨[.lit "v1", .lit "os", .string, .cid], "PUT", some gasLimitHeader, .osAdd⟩

def deleteRoute : Route := ⟨[.lit "v1", .lit "os", .string], "DELETE", some gasLimitHeader, .osDelete⟩

def getRoute : Route := ⟨[.lit "v1", .lit "os", .string], "GET", none, .osGet⟩

def listRoute : Route := ⟨[.lit "v1", .lit "os"], "GET", none, .osList⟩

def pushRoute : Route := ⟨[.lit "v1", .lit "acc"], "PUT", some gasLimitHeader, .accPush⟩

def rootRoute : Route := ⟨[.lit "v1", .lit "acc"], "GET", none, .accRoot⟩

/-- The `or` chain of the router, in the order of the source. -/
def router : List Route :=
  [healthRoute, addRoute, deleteRoute, getRoute, listRoute, pushRoute, rootRoute]

section Dispatch

/- `parseCid` says which segments `Cid::from_str` accepts. -/
variable (parseCid : String → Bool)

/-- A parameter takes a nonempty segment that parses; any `String` does. -/
def Segment.accepts : Segment → String → Bool
  | .lit s, seg => seg == s
  | .string, seg => !seg.isEmpty
  | .cid, seg => !seg.isEmpty && parseCid seg

/-- `warp::path!`, which ends in `path::end()`: the segments one to one. -/
def matchPath : List Segment → List String → Bool
  | [], [] => true
  | p :: ps, seg :: segs => p.accepts parseCid seg && matchPath ps segs
  | _, _ => false

def Route.accepts (r : Route) (method : String) (segs : List String) : Bool :=
  method == r.method && matchPath parseCid r.path segs

/-- The handler serving a request: that of the first route of the chain accepting it. -/
def dispatch (routes : List Route) (method : String) (segs : List String) : Option Handler :=
  (routes.find? fun r => r.accepts parseCid method segs).map Route.handler

end Dispatch

/-- Two path segments some request segment could match both of. -/
def Segment.Compatible : Segment → Segment → Bool
  | .lit a, .lit b => a == b
  | _, _ => true

/-- Two paths of one length, compatible segment by segment. -/
def compatiblePaths : List Segment → List Segment → Bool
  | [], [] => true
  | p :: ps, q :: qs => p.Compatible q && compatiblePaths ps qs
  | _, _ => false

/-- Two routes some request could be accepted by both of. -/
def Route.Overlaps (r₁ r₂ : Route) : Bool :=
  r₁.method == r₂.method && compatiblePaths r₁.path r₂.path

theorem Segment.compatible_of_accepts {parseCid : String → Bool} {p q : Segment} {seg : String}
    (hp : p.accepts parseCid seg) (hq : q.accepts parseCid seg) : p.Compatible q := by
  cases p <;> cases q <;> simp only [Segment.accepts, beq_iff_eq] at hp hq <;>
    simp [Segment.Compatible, ← hp, ← hq]

theorem compatiblePaths_of_match {parseCid : String → Bool} {ps qs : List Segment}
    {segs : List String} (hp : matchPath parseCid ps segs) (hq : matchPath parseCid qs segs) :
    compatiblePaths ps qs := by
  induction segs generalizing ps qs with
  | nil => cases ps <;> cases qs <;> simp_all [matchPath, compatiblePaths]
  | cons seg segs ih =>
      cases ps <;> cases qs <;>
        simp only [matchPath, compatiblePaths, Bool.and_eq_true, Bool.false_eq_true] at hp hq ⊢
      exact ⟨Segment.compatible_of_accepts hp.1 hq.1, ih hp.2 hq.2⟩

theorem Route.overlaps_of_accepts {parseCid : String → Bool} {r₁ r₂ : Route} {method : String}
    {segs : List String} (h₁ : r₁.accepts parseCid method segs)
    (h₂ : r₂.accepts parseCid method segs) : r₁.Overlaps r₂ := by
  simp only [Route.accepts, Bool.and_eq_true, beq_iff_eq] at h₁ h₂
  simp only [Route.Overlaps, Bool.and_eq_true, beq_iff_eq]
  exact ⟨h₁.1 ▸ h₂.1, compatiblePaths_of_match h₁.2 h₂.2⟩

/-- No two routes of the chain overlap. -/
theorem router_disjoint : ∀ r₁ ∈ router, ∀ r₂ ∈ router, r₁.Overlaps r₂ → r₁ = r₂ := by
  decide

/-- Where at most one element satisfies `p`, `find?` finds exactly the one that does. -/
theorem find?_eq_some_of_unique {α : Type} {l : List α} {p : α → Bool} {x : α}
    (hu : ∀ y ∈ l, ∀ z ∈ l, p y → p z → y = z) : l.find? p = some x ↔ x ∈ l ∧ p x := by
  refine ⟨fun h => ⟨List.mem_of_find?_eq_some h, List.find?_some h⟩, fun ⟨hx, hpx⟩ => ?_⟩
  obtain ⟨y, hy⟩ := Option.isSome_iff_exists.1 (List.find?_isSome.2 ⟨x, hx, hpx⟩)
  rw [hy, hu y (List.mem_of_find?_eq_some hy) x hx (List.find?_some hy) hpx]

/-- A request is served by the handler of the one route accepting it, whatever the order of
the `or` chain. -/
theorem dispatch_perm (parseCid : String → Bool) (routes : List Route)
    (hperm : routes.Perm router) (method : String) (segs : List String) (h : Handler) :
    dispatch parseCid routes method segs = some h ↔
      ∃ r ∈ router, r.accepts parseCid method segs ∧ r.handler = h := by
  have hu : ∀ y ∈ routes, ∀ z ∈ routes, y.accepts parseCid method segs →
      z.accepts parseCid method segs → y = z := fun y hy z hz h₁ h₂ =>
    router_disjoint y (hperm.mem_iff.1 hy) z (hperm.mem_iff.1 hz)
      (Route.overlaps_of_accepts h₁ h₂)
  simp only [dispatch, Option.map_eq_some', find?_eq_some_of_unique hu, hperm.mem_iff, and_assoc]

theorem dispatch_perm_reverse :
    router.reverse.Perm router ∧
      (dispatch (fun _ => true) router.reverse "GET" ["v1", "os", "key"] = some .osGet ↔
        ∃ r ∈ router, r.accepts (fun _ => true) "GET" ["v1", "os", "key"] ∧ r.handler = .osGet) :=
  ⟨List.reverse_perm _, dispatch_perm _ _ (List.reverse_perm _) _ _ _⟩

/-- The CORS filter: `allow_methods` and `allow_headers` as the source lists them. -/
def corsMethods : List String := ["PUT", "DEL", "GET"]

def corsHeaders : List String := ["Content-Type"]

/-- Header names compare whatever their case. -/
def sameHeader (a b : String) : Bool :=
  a.toList.map Char.toLower == b.toList.map Char.toLower

/-- The preflight check of the CORS filter: the method and each header allowed. -/
def preflight (method : String) (headers : List String) : Bool :=
  corsMethods.contains method && headers.all fun h => corsHeaders.any (sameHeader h)

/-- A page of another origin can reach every route but the delete route, whose method the CORS
filter spells `DEL`; and it can never send the gas limit header a write route reads. -/
theorem cors_preflight : ∀ r ∈ router,
    (preflight r.method [] ↔ r.handler ≠ .osDelete) ∧
      ∀ h ∈ r.header, preflight r.method [h] = false := by
  decide

end Fendermint.Router
