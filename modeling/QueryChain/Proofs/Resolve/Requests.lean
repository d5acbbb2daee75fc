import QueryChain.Proofs.Resolve.Closure
import QueryChain.Proofs.Resolve.Filing

/-!
# What tables are asked for

A joined table is asked for by a relation and a path, and what counts of the path is how it looks.
The number of a joined table is no part of its look, so requests can be compared across sessions.

* `requests_nodup`: the tables of a session stand for different requests, and the table found is the
  one that stands for the request (`Orderly.indexOf?_iff`);
* `mem_requests_follow`: while no table is named, following relations adds the requests that
  `Schema.requests` lists for them, whatever tables there were before.
-/

namespace QueryChain

/-- What a joined table is asked for by: how the path to it looks, and a relation. -/
structure Request where
  path : JoinPath
  declaringType : String
  relation : String
deriving DecidableEq

namespace JoinedTables

variable {schema : Schema} {ts ts' : JoinedTables} {path p q : JoinPath} {relation : Member}
  {relations : List Member} {link : Link} {name : String}

/-- The request for the table that a relation leads to from the end of a path. -/
def request (ts : JoinedTables) (path : JoinPath) (relation : Member) : Request where
  path := path.map ts.look
  declaringType := relation.declaringType
  relation := relation.name

/-- The requests that the joined tables were made for. -/
def requests (ts : JoinedTables) : List Request :=
  ts.tables.map fun t => ts.request t.path t.relation

theorem request_eq_iff {r r' : Member} :
    ts.request p r = ts.request q r' ↔ ts.samePath p q ∧ r.same r' := by
  simp only [request, Request.mk.injEq, samePath_iff, Member.same_iff]

theorem length_requests (ts : JoinedTables) : ts.requests.length = ts.tables.length :=
  List.length_map _

theorem requests_getElem? (ts : JoinedTables) (i : Nat) :
    ts.requests[i]? = (ts.tables[i]?).map fun t => ts.request t.path t.relation :=
  List.getElem?_map

/-- In orderly tables, the table that is found is the one that stands for the request. -/
theorem Orderly.indexOf?_iff (h : ts.Orderly schema) {index : Nat} :
    ts.indexOf? path relation = some index
      ↔ ts.requests[index]? = some (ts.request path relation) := by
  simp only [requests_getElem?, Option.map_eq_some_iff, request_eq_iff]
  constructor
  · intro hindex
    obtain ⟨t, ht, hrelation, hpath, -⟩ := indexOf?_eq_some_iff.1 hindex
    exact ⟨t, ht, hpath, hrelation⟩
  · rintro ⟨t, ht, hpath, hrelation⟩
    exact h.indexOf?_eq ht hrelation hpath

/-- Each table of a session stands for a request of its own. -/
theorem requests_nodup (h : ts.Orderly schema) : ts.requests.Nodup := by
  refine List.pairwise_iff_getElem.2 fun i k hi hk hlt heq => ?_
  simp only [requests, List.getElem_map, List.length_map] at heq hi hk
  obtain ⟨hpath, hrelation⟩ := request_eq_iff.1 heq
  have := h.unique i k _ _ (List.getElem?_eq_getElem hi) (List.getElem?_eq_getElem hk) hrelation
    hpath
  omega

/-- The tables that were there stand for the same requests after tables are added. -/
theorem Extends.map_request (h : ts.Extends ts') (hpaths : ts.PathsMade) :
    (ts.tables.map fun t => ts'.request t.path t.relation) = ts.requests := by
  refine List.map_congr_left fun t ht => ?_
  simp only [request, h.path_look_eq (hpaths t ht)]

/-- After a relation is followed, the table for its request is there, and no other one was made. -/
theorem mem_requests_join (hpaths : ts.PathsMade) (hpath : path.Made ts) {r : Request} :
    r ∈ (ts.join path relation name).2.requests ↔
      r ∈ ts.requests ∨ r = ts.request path relation := by
  have hext := join_extends ts path relation name
  rcases join_cases ts path relation name with ⟨index, hindex, heq⟩ | ⟨-, heq⟩
  · obtain ⟨t, ht, hrelation, hsame, -⟩ := indexOf?_eq_some_iff.1 hindex
    rw [heq, iff_self_or]
    rintro rfl
    exact List.mem_map.2 ⟨t, List.mem_of_getElem? ht, request_eq_iff.2 ⟨hsame, hrelation⟩⟩
  · have hold := hext.map_request hpaths
    have hnew := hext.path_look_eq hpath
    rw [heq] at hold hnew ⊢
    rw [requests, List.map_append, hold, List.mem_append, List.map_singleton, List.mem_singleton,
      request, hnew]
    rfl

/-! ## While no table is named -/

/-- The tables of a session in which no table is named yet. -/
structure Fresh (schema : Schema) (ts : JoinedTables) : Prop where
  orderly : ts.Orderly schema
  unnamed : ts.Unnamed

theorem fresh_new (schema : Schema) (aliasPrefix : String) : Fresh schema { aliasPrefix } where
  orderly := orderly_new schema aliasPrefix
  unnamed := by simp [Unnamed]

theorem Fresh.follow (h : ts.Fresh schema) (hmade : path.Made ts) (hrouted : path.Routed) :
    (ts.follow schema path relations).2.Fresh schema := by
  refine ⟨h.orderly.follow hmade hrouted, ?_⟩
  obtain ⟨made, htables, hnone⟩ := follow_tables schema ts path relations
  rw [htables]
  intro t ht
  rcases List.mem_append.1 ht with ht | ht
  · exact h.unnamed t ht
  · exact hnone t ht

theorem Fresh.join (h : ts.Fresh schema) (hmade : path.Made ts) (hrouted : path.Routed)
    (hlink : schema.link? relation = some link) :
    (ts.join path relation link.targetTable).2.Fresh schema := by
  have hfollow : (ts.follow schema path [relation]).2.Fresh schema := h.follow hmade hrouted
  rwa [follow_of_link hlink] at hfollow

/-- A table that a relation leads to looks like any other one that it leads to. -/
theorem Fresh.look_joined (h : ts.Fresh schema) {index : Nat} {t : TableEntry}
    (ht : ts.tables[index]? = some t) (hrelation : t.relation.same relation)
    (hlink : schema.link? relation = some link) :
    ts.look (.table (.joined index)) = .table (.free 0 link.targetTable none) := by
  have hmem := List.mem_of_getElem? ht
  obtain ⟨link', hlink', hname⟩ := h.orderly.linked t hmem
  rw [Schema.link?_of_same hrelation, hlink] at hlink'
  cases hlink'
  simp [look, JoinedTables.name, alias?, ht, hname, h.unnamed t hmem]

end JoinedTables

/-- The requests that following relations makes from the end of a path that looks like `path`, up to
the first member that is no relation. -/
def Schema.requests (schema : Schema) (path : JoinPath) : List Member → List Request
  | [] => []
  | relation :: relations =>
    match schema.link? relation with
    | none => []
    | some link =>
      { path, declaringType := relation.declaringType, relation := relation.name }
        :: schema.requests (path.extend link (.free 0 link.targetTable none)) relations

namespace JoinedTables

variable {schema : Schema} {ts ts' : JoinedTables} {path : JoinPath} {relation : Member}
  {relations : List Member} {link : Link}

/-- How a path looks that was led on by a relation depends on how it looked before, and on nothing
else. -/
theorem Fresh.path_look_extend (h : ts.Fresh schema) (hmade : path.Made ts) (hrouted : path.Routed)
    (hlink : schema.link? relation = some link) :
    (path.extend link (ts.join path relation link.targetTable).1).map
        (ts.join path relation link.targetTable).2.look
      = (path.map ts.look).extend link (.free 0 link.targetTable none) := by
  obtain ⟨index, t, htable, ht, hrelation, -⟩ := join_entry ts path relation link.targetTable
  have hlook := (h.join hmade hrouted hlink).look_joined ht hrelation hlink
  rw [htable, JoinPath.map_extend hlook,
    (join_extends ts path relation link.targetTable).path_look_eq hmade]

/-- Following relations asks for tables that depend on how the path to them looks, and on nothing
else; it makes those among them that are not there. -/
theorem mem_requests_follow (h : ts.Fresh schema) (hmade : path.Made ts) (hrouted : path.Routed)
    {r : Request} :
    r ∈ (ts.follow schema path relations).2.requests ↔
      r ∈ ts.requests ∨ r ∈ schema.requests (path.map ts.look) relations := by
  induction relations generalizing ts path with
  | nil => simp [follow, Schema.requests]
  | cons relation relations ih =>
    cases hlink : schema.link? relation with
    | none => simp [follow_of_no_link hlink, Schema.requests, hlink]
    | some link =>
      rw [follow_of_link hlink, ih (h.join hmade hrouted hlink) (hmade.extend relation link)
          (join_routed hrouted relation link),
        mem_requests_join h.orderly.made hmade, h.path_look_extend hmade hrouted hlink,
        Schema.requests, hlink, List.mem_cons, or_assoc]
      rfl

end JoinedTables

end QueryChain
