import KseRewriteProxy.Processes.Refinement

/-!
# Validation of cached representations

One resource has a version at any time, and a server renders versions and tags what it renders.
Clients keep renderings under their tags. A client names tags that it keeps when it asks again, and
the server may then answer that the rendering with one of these tags is still good. Versions are
published and servers are replaced at any time, also between the request and the answer of a client.

`System.Reachable.view_sound` says what a client sees: a version that was current since it asked, as
the server that it asked renders it, up to what the tags of this server and of the others do not
tell apart.

The resource remembers all versions and all servers, and only ever grows (`Resource.Extends`). What
a client knows is therefore stated against a past of the resource and stays true while it grows
(`Exchange.Sound.mono`, `View.Sound.mono`): every stored body is the rendering of a published
version by a deployed server under the tag it is kept under, and an exchange that is going on asks a
deployed server and names tags of the cache. The invariant of one client needs nothing of the
others, so it is proved one step of one client at a time.
-/

namespace Processes

/-- How servers render and tag versions. -/
structure Rendering (C V T B : Type*) where
  tag : C → V → Option T
  render : C → V → B

/-- The servers and the versions of a resource, the current ones apart. -/
structure Resource (C V : Type*) where
  pastServers : List C
  server : C
  past : List V
  current : V

namespace Resource

variable {C V : Type*}

/-- All servers, the first one first. -/
def deployed (r : Resource C V) : List C :=
  r.pastServers ++ [r.server]

/-- All versions, the oldest first. -/
def published (r : Resource C V) : List V :=
  r.past ++ [r.current]

/-- Another server. -/
def deploy (r : Resource C V) (server : C) : Resource C V :=
  { r with pastServers := r.deployed, server := server }

/-- Another version. -/
def publish (r : Resource C V) (version : V) : Resource C V :=
  { r with past := r.published, current := version }

/-- The versions that were current since some number of them was past. -/
def since (r : Resource C V) (count : ℕ) : List V :=
  r.published.drop count

theorem server_mem_deployed (r : Resource C V) : r.server ∈ r.deployed :=
  List.mem_append_right _ (List.mem_singleton_self _)

theorem current_mem_since {r : Resource C V} {count : ℕ} (h : count ≤ r.past.length) :
    r.current ∈ r.since count := by
  rw [since, published, List.drop_append_of_le_length h]
  exact List.mem_append_right _ (List.mem_singleton_self _)

/-- What has been current since then has been published. -/
theorem since_subset (r : Resource C V) (count : ℕ) : r.since count ⊆ r.published :=
  List.drop_subset _ _

/-- More servers and later versions. -/
structure Extends (r r' : Resource C V) : Prop where
  deployed : r.deployed ⊆ r'.deployed
  published : r.published <+: r'.published

theorem extends_deploy (r : Resource C V) (server : C) : r.Extends (r.deploy server) :=
  ⟨List.subset_append_left _ _, List.prefix_rfl⟩

theorem extends_publish (r : Resource C V) (version : V) : r.Extends (r.publish version) :=
  ⟨fun _ h ↦ h, List.prefix_append _ _⟩

namespace Extends

variable {r r' : Resource C V} (h : r.Extends r')

include h

theorem length_past_le : r.past.length ≤ r'.past.length := by
  have hlength := h.published.length_le
  simp only [Resource.published, List.length_append, List.length_singleton] at hlength
  omega

/-- What was current stays among what was. -/
theorem mem_since {count : ℕ} {version : V} (hversion : version ∈ r.since count) :
    version ∈ r'.since count := by
  obtain ⟨later, hlater⟩ := h.published
  rw [since, ← hlater, List.drop_append]
  exact List.mem_append_left _ hversion

end Extends

end Resource

/-- A body represents a version at a server: it is its rendering, or a rendering with its tag. -/
def Rendering.Represents {C V T B : Type*} (M : Rendering C V T B) (r : Resource C V) (server : C)
    (version : V) (body : B) : Prop :=
  body = M.render server version ∨
    ∃ server' ∈ r.deployed, ∃ version' ∈ r.published, ∃ t, M.tag server' version' = some t ∧
      M.tag server version = some t ∧ body = M.render server' version'

/-! ### Clients -/

/-- How far the request of a client has come. -/
inductive Exchange (C V T : Type*) where
  | idle
  /-- A server has got the request, which names tags, when a number of versions was past. -/
  | asked (server : C) (tags : List T) (count : ℕ)
  /-- The server has got the version. -/
  | fetched (server : C) (tags : List T) (count : ℕ) (version : V)

/-- What a client sees: the server that it asked, the number of versions that were past then, the
version that the server answered for, and what the client showed, if anything. -/
structure View (C V B : Type*) where
  server : C
  count : ℕ
  version : V
  shown : Option B

/-- A client with its cache and all that it has seen. -/
structure Client (C V T B : Type*) where
  cache : List (T × B)
  exchange : Exchange C V T
  views : List (View C V B)

/-- The parties of the protocol. -/
inductive Party (C V T B : Type*) where
  | operator
  | client (client : Client C V T B)

section

variable {C V T B : Type*} [DecidableEq T]

/-- What is kept under a tag. -/
def stored (cache : List (T × B)) (t : T) : Option B :=
  cache.lookup t

theorem exists_stored_eq {cache : List (T × B)} {t : T} (h : t ∈ cache.map Prod.fst) :
    ∃ body, stored cache t = some body ∧ (t, body) ∈ cache := by
  have hsome : (cache.lookup t).isSome := by
    obtain ⟨entry, hentry, rfl⟩ := List.mem_map.1 h
    exact List.lookup_isSome_iff.2 ⟨entry, hentry, beq_self_eq_true _⟩
  obtain ⟨body, hbody⟩ := Option.isSome_iff_exists.1 hsome
  obtain ⟨before, after, hsplit, -⟩ := List.lookup_eq_some_iff.1 hbody
  exact ⟨body, hbody, hsplit ▸ List.mem_append_right _ List.mem_cons_self⟩

variable (M : Rendering C V T B)

/-- One step of a client. -/
inductive ClientStep (r : Resource C V) : Client C V T B → Client C V T B → Prop
  /-- It asks, and names some of its tags. -/
  | ask {cache : List (T × B)} {views : List (View C V B)} {tags : List T}
    (htags : ∀ t ∈ tags, t ∈ cache.map Prod.fst) :
    ClientStep r ⟨cache, .idle, views⟩ ⟨cache, .asked r.server tags r.past.length, views⟩
  | fetch {cache : List (T × B)} {views : List (View C V B)} {server : C} {tags : List T}
    {count : ℕ} :
    ClientStep r ⟨cache, .asked server tags count, views⟩
      ⟨cache, .fetched server tags count r.current, views⟩
  /-- It gets the rendering, and may keep it under its tag. -/
  | full {cache cache' : List (T × B)} {views : List (View C V B)} {server : C} {tags : List T}
    {count : ℕ} {version : V} (hcache : cache' = cache ∨ ∃ t, M.tag server version = some t ∧
      cache' = (t, M.render server version) :: cache) :
    ClientStep r ⟨cache, .fetched server tags count version, views⟩
      ⟨cache', .idle, ⟨server, count, version, some (M.render server version)⟩ :: views⟩
  /-- It gets a tag that it has named. -/
  | notModified {cache : List (T × B)} {views : List (View C V B)} {server : C} {tags : List T}
    {count : ℕ} {version : V} {t : T} (htag : M.tag server version = some t) (hnamed : t ∈ tags) :
    ClientStep r ⟨cache, .fetched server tags count version, views⟩
      ⟨cache, .idle, ⟨server, count, version, stored cache t⟩ :: views⟩
  /-- It gets nothing that it could show. -/
  | giveUp {cache : List (T × B)} {exchange : Exchange C V T} {views : List (View C V B)} :
    ClientStep r ⟨cache, exchange, views⟩ ⟨cache, .idle, views⟩
  /-- It forgets some of its cache, but not while it waits. -/
  | evict {cache cache' : List (T × B)} {views : List (View C V B)} (hcache : cache' ⊆ cache) :
    ClientStep r ⟨cache, .idle, views⟩ ⟨cache', .idle, views⟩

/-- One step of a party. -/
inductive PartyStep : Resource C V → Party C V T B → Resource C V → Party C V T B → Prop
  | deploy {r : Resource C V} (server : C) : PartyStep r .operator (r.deploy server) .operator
  | publish {r : Resource C V} (version : V) :
    PartyStep r .operator (r.publish version) .operator
  | client {r : Resource C V} {c c' : Client C V T B} (h : ClientStep M r c c') :
    PartyStep r (.client c) r (.client c')

/-- The clients and operators of a resource. -/
def validation (r : Resource C V) : System (Resource C V) (Party C V T B) where
  init := r
  Start p := p = .operator ∨ p = .client ⟨[], .idle, []⟩
  Step := PartyStep M

/-! ### The invariant -/

/-- A rendering under its tag. -/
def Rendering.Tagged (r : Resource C V) (entry : T × B) : Prop :=
  ∃ server ∈ r.deployed, ∃ version ∈ r.published,
    M.tag server version = some entry.1 ∧ entry.2 = M.render server version

/-- What the answer relies on. -/
def Exchange.Sound (r : Resource C V) (cache : List (T × B)) : Exchange C V T → Prop
  | .idle => True
  | .asked server tags count =>
    server ∈ r.deployed ∧ (∀ t ∈ tags, t ∈ cache.map Prod.fst) ∧ count ≤ r.past.length
  | .fetched server tags count version =>
    server ∈ r.deployed ∧ (∀ t ∈ tags, t ∈ cache.map Prod.fst) ∧ version ∈ r.since count

/-- The client has seen a version that was current since it asked. -/
structure View.Sound (r : Resource C V) (view : View C V B) : Prop where
  server : view.server ∈ r.deployed
  version : view.version ∈ r.since view.count
  shown : ∃ body, view.shown = some body ∧ M.Represents r view.server view.version body

/-- What holds between the resource and a client. -/
structure Client.Sound (r : Resource C V) (c : Client C V T B) : Prop where
  cache : ∀ entry ∈ c.cache, M.Tagged r entry
  exchange : c.exchange.Sound r c.cache
  views : ∀ view ∈ c.views, view.Sound M r

variable {M} {r r' : Resource C V} {c c' : Client C V T B}

omit [DecidableEq T] in
theorem Exchange.Sound.mono (hextends : r.Extends r') {cache : List (T × B)}
    {exchange : Exchange C V T} (h : exchange.Sound r cache) : exchange.Sound r' cache := by
  cases exchange with
  | idle => exact trivial
  | asked server tags count =>
    obtain ⟨hserver, htags, hcount⟩ := h
    exact ⟨hextends.deployed hserver, htags, hcount.trans hextends.length_past_le⟩
  | fetched server tags count version =>
    obtain ⟨hserver, htags, hversion⟩ := h
    exact ⟨hextends.deployed hserver, htags, hextends.mem_since hversion⟩

omit [DecidableEq T] in
theorem View.Sound.mono (hextends : r.Extends r') {view : View C V B} (h : view.Sound M r) :
    view.Sound M r' := by
  obtain ⟨body, hshown, hbody⟩ := h.shown
  refine ⟨hextends.deployed h.server, hextends.mem_since h.version, body, hshown, ?_⟩
  rcases hbody with hbody | ⟨server', hserver', version', hversion', htags⟩
  · exact Or.inl hbody
  · exact Or.inr ⟨server', hextends.deployed hserver', version',
      hextends.published.subset hversion', htags⟩

omit [DecidableEq T] in
/-- The invariant is stable when servers are replaced and versions published. -/
theorem Client.Sound.mono (hextends : r.Extends r') (h : c.Sound M r) : c.Sound M r' := by
  refine ⟨fun entry hentry ↦ ?_, h.exchange.mono hextends, fun view hview ↦
    (h.views view hview).mono hextends⟩
  obtain ⟨server, hserver, version, hversion, htagged⟩ := h.cache entry hentry
  exact ⟨server, hextends.deployed hserver, version, hextends.published.subset hversion, htagged⟩

/-- **A step of a client keeps the invariant.** -/
theorem ClientStep.sound (hstep : ClientStep M r c c') (h : c.Sound M r) : c'.Sound M r := by
  cases hstep with
  | ask htags => exact ⟨h.cache, ⟨r.server_mem_deployed, htags, le_rfl⟩, h.views⟩
  | fetch =>
    obtain ⟨hserver, htags, hcount⟩ := h.exchange
    exact ⟨h.cache, ⟨hserver, htags, Resource.current_mem_since hcount⟩, h.views⟩
  | full hcache =>
    obtain ⟨hserver, -, hversion⟩ := h.exchange
    refine ⟨?_, trivial,
      List.forall_mem_cons.2 ⟨⟨hserver, hversion, _, rfl, Or.inl rfl⟩, h.views⟩⟩
    rcases hcache with rfl | ⟨t, htag, rfl⟩
    · exact h.cache
    · exact List.forall_mem_cons.2
        ⟨⟨_, hserver, _, r.since_subset _ hversion, htag, rfl⟩, h.cache⟩
  | @notModified cache views server tags count version t htag hnamed =>
    obtain ⟨hserver, htags, hversion⟩ := h.exchange
    refine ⟨h.cache, trivial, List.forall_mem_cons.2 ⟨⟨hserver, hversion, ?_⟩, h.views⟩⟩
    -- The tag was named, so the client still has something under it.
    obtain ⟨body, hbody, hentry⟩ := exists_stored_eq (htags t hnamed)
    obtain ⟨server', hserver', version', hversion', htag', hrender⟩ := h.cache _ hentry
    exact ⟨body, hbody,
      Or.inr ⟨server', hserver', version', hversion', t, htag', htag, hrender⟩⟩
  | giveUp => exact ⟨h.cache, trivial, h.views⟩
  | evict hcache => exact ⟨fun entry hentry ↦ h.cache entry (hcache hentry), trivial, h.views⟩

/-- **What a client sees**: a version that was current since it asked, and a body that represents it
at the server that it asked. -/
theorem System.Reachable.view_sound {state : State (Resource C V) (Party C V T B)}
    (h : (validation M r).Reachable state) (hc : .client c ∈ state.processes) :
    ∀ view ∈ c.views, view.Sound M state.shared := by
  have hsound := h.forall_mem_of_stable
    (Q := fun r p ↦ ∀ c, p = .client c → c.Sound M r) ?_ ?_ ?_
  · exact (hsound _ hc c rfl).views
  · rintro s p (rfl | rfl) c hc
    · cases hc
    · obtain rfl := Party.client.inj hc
      exact ⟨fun _ hmem ↦ absurd hmem List.not_mem_nil, trivial,
        fun _ hmem ↦ absurd hmem List.not_mem_nil⟩
  · intro s p s' p' hp hstep c hc
    cases hstep with
    | deploy => cases hc
    | publish => cases hc
    | client hclient =>
      obtain rfl := Party.client.inj hc
      exact hclient.sound (hp _ rfl)
  · intro s p s' p' q hq hstep c hc
    cases hstep with
    | deploy server => exact (hq c hc).mono (s.extends_deploy server)
    | publish version => exact (hq c hc).mono (s.extends_publish version)
    | client => exact hq c hc

end

end Processes
