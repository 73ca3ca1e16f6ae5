import KseRewriteProxy.Config.Effective

/-!
# Which configurations are accepted

`from_yaml` reads a document in a fixed order of checks, and switches the rules in the order in
which a hash map is iterated. `RawConfig.Yields` says without an order which configuration a
document yields, and `fromYaml_eq_ok_iff` that `from_yaml` accepts exactly the documents that yield
one; `policy_of_fromYaml` reads the policy off the document.

## The checks

Each check of the code has a lemma that says when it passes. Two of them are not what they look
like: a set of extensions is checked with the names that were seen before
(`validateFrom_eq_ok_iff`), and two sockets overlap when some address is taken by both
(`socketAddrsOverlap_iff`), where an unspecified address takes every address of its family.

## The order of the map

Switching a rule off or on commutes with switching another, and the keys of a map are distinct, so
the rules that are left do not depend on the order. The order shows in one way only: which of
several unknown rules is reported (`sameOutcome_iterating`). `SameOutcome` says this of any two
computations, and is kept by every check that follows.
-/

namespace KseRewriteProxy

open Text

/-! ### Checks in sequence -/

/-- A check in a sequence of computations. -/
theorem check_eq_ok_iff {ε α : Type} {p : Prop} [Decidable p] {e : ε} {rest : Unit → Except ε α}
    {a : α} : (if p then throw e >>= rest else rest ()) = .ok a ↔ ¬ p ∧ rest () = .ok a := by
  by_cases h : p
  · rw [if_pos h]
    exact iff_of_false (fun hthrow ↦ by cases hthrow) fun hrest ↦ hrest.1 h
  · rw [if_neg h]
    exact (and_iff_right h).symm

theorem mapError_eq_ok_iff {ε ε' α : Type} {f : ε → ε'} {x : Except ε α} {a : α} :
    x.mapError f = .ok a ↔ x = .ok a := by
  cases x with
  | error e => exact iff_of_false (fun h ↦ by cases h) fun h ↦ by cases h
  | ok b => simp only [Except.mapError, Except.ok.injEq]

/-! ### Sockets -/

/-- A socket that is bound to an address takes what is sent to the target. -/
def SocketAddr.Takes (bound target : SocketAddr) : Prop :=
  bound.port = target.port ∧ (bound.ip.isUnspecified = true ∨ bound.ip = target.ip)

/-- **Sockets overlap when an address is taken by both.** -/
theorem socketAddrsOverlap_iff {first second : SocketAddr} :
    socketAddrsOverlap first second = true ↔
      ∃ target, first.Takes target ∧ second.Takes target := by
  simp only [socketAddrsOverlap, Bool.and_eq_true, Bool.or_eq_true, beq_iff_eq]
  constructor
  · rintro ⟨hport, (hfirst | hsecond) | hip⟩
    · exact ⟨second, ⟨hport, Or.inl hfirst⟩, rfl, Or.inr rfl⟩
    · exact ⟨first, ⟨rfl, Or.inr rfl⟩, hport.symm, Or.inl hsecond⟩
    · exact ⟨second, ⟨hport, Or.inr hip⟩, rfl, Or.inr rfl⟩
  · rintro ⟨target, ⟨hport, hfirst⟩, hport', hsecond⟩
    refine ⟨hport.trans hport'.symm, ?_⟩
    rcases hfirst with hfirst | hfirst
    · exact Or.inl (Or.inl hfirst)
    · rcases hsecond with hsecond | hsecond
      · exact Or.inl (Or.inr hsecond)
      · exact Or.inr (hfirst.trans hsecond.symm)

/-- No address is taken by both. -/
def SocketAddr.Disjoint (first second : SocketAddr) : Prop :=
  ¬ ∃ target, first.Takes target ∧ second.Takes target

/-- No address is taken by both sockets exactly if the check of the code passes. -/
theorem SocketAddr.disjoint_iff {first second : SocketAddr} :
    first.Disjoint second ↔ socketAddrsOverlap first second = false := by
  rw [SocketAddr.Disjoint, ← socketAddrsOverlap_iff, Bool.not_eq_true]

/-! ### Extension lists -/

/-- Explicit extensions: different names, each of them safe. -/
structure ExplicitExtensions (extensions : List Str) : Prop where
  isSafe : ∀ extension ∈ extensions, isSafeExtensionName extension = true
  nodup : extensions.Nodup

theorem validateFrom_eq_ok_iff {field : Str} {seen extensions : List Str} :
    validateFrom field seen extensions = .ok () ↔
      ExplicitExtensions extensions ∧ ∀ extension ∈ extensions, extension ∉ seen := by
  induction extensions generalizing seen with
  | nil => exact iff_of_true rfl ⟨⟨by simp, List.nodup_nil⟩, by simp⟩
  | cons extension rest ih =>
    rw [validateFrom]
    by_cases hsafe : isSafeExtensionName extension = true
    · rw [if_neg (by simp [hsafe])]
      by_cases hseen : extension ∈ seen
      · rw [if_pos hseen]
        exact iff_of_false (by simp) fun h ↦ h.2 extension List.mem_cons_self hseen
      · rw [if_neg hseen, ih]
        constructor
        · rintro ⟨⟨hrest, hnodup⟩, hnot⟩
          refine ⟨⟨List.forall_mem_cons.2 ⟨hsafe, hrest⟩,
            List.nodup_cons.2 ⟨fun hmem ↦ ?_, hnodup⟩⟩,
            List.forall_mem_cons.2 ⟨hseen, fun name hname hmem ↦ ?_⟩⟩
          · exact hnot extension hmem List.mem_cons_self
          · exact hnot name hname (List.mem_cons_of_mem _ hmem)
        · rintro ⟨⟨hall, hnodup⟩, hnot⟩
          obtain ⟨hfirst, hnodup⟩ := List.nodup_cons.1 hnodup
          refine ⟨⟨(List.forall_mem_cons.1 hall).2, hnodup⟩, fun name hname hmem ↦ ?_⟩
          rcases List.mem_cons.1 hmem with rfl | hmem
          · exact hfirst hname
          · exact hnot name (List.mem_cons_of_mem _ hname) hmem
    · rw [if_pos (by simp [hsafe])]
      exact iff_of_false (by simp) fun h ↦ hsafe (h.1.isSafe extension List.mem_cons_self)

theorem validateExplicitExtensions_eq_ok_iff {field : Str} {extensions : List Str} :
    validateExplicitExtensions field extensions = .ok () ↔ ExplicitExtensions extensions := by
  rw [validateExplicitExtensions, validateFrom_eq_ok_iff]
  exact and_iff_left fun _ _ ↦ List.not_mem_nil

/-- The wildcard is no name. -/
theorem not_isSafe_allExtensionsWildcard : isSafeExtensionName allExtensionsWildcard = false := by
  decide

/-- The wildcard is not a safe name, so it is never an explicit extension. -/
theorem ExplicitExtensions.not_mem_allExtensionsWildcard {extensions : List Str}
    (h : ExplicitExtensions extensions) : allExtensionsWildcard ∉ extensions := by
  intro hmem
  have hsafe := h.isSafe _ hmem
  rw [not_isSafe_allExtensionsWildcard] at hsafe
  exact Bool.false_ne_true hsafe

/-- The extension list that enables all extensions, or one of their names. -/
def EnablesExtensions (extensions : List Str) : Prop :=
  extensions = [allExtensionsWildcard] ∨ ExplicitExtensions extensions

/-- Both lists of extensions are checked, the enabled ones only if they are not the wildcard. -/
theorem validateExtensions_eq_ok_iff {rewrite : RawRewriteConfig} :
    validateExtensions rewrite = .ok () ↔
      EnablesExtensions rewrite.enabledExtensions ∧
        ExplicitExtensions rewrite.disabledExtensions := by
  rw [validateExtensions]
  by_cases hwildcard : rewrite.enabledExtensions.any (· == allExtensionsWildcard) = true
  · have hmem : allExtensionsWildcard ∈ rewrite.enabledExtensions := by simpa using hwildcard
    have hexplicit : ¬ ExplicitExtensions rewrite.enabledExtensions :=
      fun h ↦ h.not_mem_allExtensionsWildcard hmem
    rw [if_pos hwildcard, check_eq_ok_iff, not_not, validateExplicitExtensions_eq_ok_iff,
      EnablesExtensions, or_iff_left hexplicit]
    refine and_congr_left fun _ ↦ ?_
    constructor
    · intro hlength
      obtain ⟨extension, heq⟩ := List.length_eq_one_iff.1 hlength
      rw [heq, List.mem_singleton] at hmem
      rw [heq, hmem]
    · intro heq
      rw [heq, List.length_singleton]
  · have hmem : allExtensionsWildcard ∉ rewrite.enabledExtensions := by simpa using hwildcard
    have hnot : rewrite.enabledExtensions ≠ [allExtensionsWildcard] :=
      fun heq ↦ hmem (heq ▸ List.mem_singleton_self _)
    rw [if_neg hwildcard, EnablesExtensions, or_iff_right hnot, bind_eq_ok_iff]
    simp only [validateExplicitExtensions_eq_ok_iff]
    constructor
    · rintro ⟨⟨⟩, henabled, hdisabled⟩
      exact ⟨validateExplicitExtensions_eq_ok_iff.1 henabled, hdisabled⟩
    · rintro ⟨henabled, hdisabled⟩
      exact ⟨(), validateExplicitExtensions_eq_ok_iff.2 henabled, hdisabled⟩

/-! ### Rule switches -/

/-- The switches set the rule. -/
def Sets (rules : List (UInt8 × Bool)) (rule : RewriteRule) (on : Bool) : Prop :=
  ∃ number : UInt8, number.toNat = rule.number ∧ (number, on) ∈ rules

/-- The keys of a map: every number is switched once. -/
def IsMap (rules : List (UInt8 × Bool)) : Prop :=
  (rules.map Prod.fst).Nodup

/-- The number is the one of a rule. -/
def IsRuleNumber (number : UInt8) : Prop :=
  ∃ rule : RewriteRule, rule.number = number.toNat

theorem number_injective : Function.Injective RewriteRule.number := by
  intro rule rule' h
  cases rule <;> cases rule' <;> first | rfl | exact absurd h (by decide)

theorem mem_all (rule : RewriteRule) : rule ∈ RewriteRule.all := by
  cases rule <;> decide

theorem tryFrom_eq_ok_iff {number : UInt8} {rule : RewriteRule} :
    RewriteRule.tryFrom number = .ok rule ↔ rule.number = number.toNat := by
  rw [RewriteRule.tryFrom]
  rcases hfind : RewriteRule.all.find? fun rule ↦ rule.number == number.toNat with - | found
  · rw [hfind]
    refine iff_of_false (by simp) fun h ↦ ?_
    exact List.find?_eq_none.1 hfind rule (mem_all rule) (by simp [h])
  · have hfound : found.number = number.toNat := by simpa using List.find?_some hfind
    rw [hfind]
    simp only [Except.ok.injEq]
    exact ⟨fun h ↦ h ▸ hfound, fun h ↦ number_injective (hfound.trans h.symm)⟩

theorem tryFrom_eq_error {number : UInt8} (h : ¬ IsRuleNumber number) :
    RewriteRule.tryFrom number = .error number := by
  rw [RewriteRule.tryFrom]
  rcases hfind : RewriteRule.all.find? fun rule ↦ rule.number == number.toNat with - | found
  · rw [hfind]
  · have hfound : found.number = number.toNat := by simpa using List.find?_some hfind
    exact absurd ⟨found, hfound⟩ h

theorem sets_cons_iff {switch : UInt8 × Bool} {rest : List (UInt8 × Bool)} {rule : RewriteRule}
    {on : Bool} : Sets (switch :: rest) rule on ↔
      switch.1.toNat = rule.number ∧ switch.2 = on ∨ Sets rest rule on := by
  constructor
  · rintro ⟨number, hnumber, hmem⟩
    rcases List.mem_cons.1 hmem with rfl | hmem
    · exact Or.inl ⟨hnumber, rfl⟩
    · exact Or.inr ⟨number, hnumber, hmem⟩
  · rintro (⟨hnumber, rfl⟩ | ⟨number, hnumber, hmem⟩)
    · exact ⟨switch.1, hnumber, List.mem_cons_self⟩
    · exact ⟨number, hnumber, List.mem_cons_of_mem _ hmem⟩

theorem Sets.mem_keys {rules : List (UInt8 × Bool)} {rule : RewriteRule} {on : Bool}
    (h : Sets rules rule on) {number : UInt8} (hnumber : number.toNat = rule.number) :
    number ∈ rules.map Prod.fst := by
  obtain ⟨number', hnumber', hmem⟩ := h
  obtain rfl := UInt8.toNat_inj.1 (hnumber.trans hnumber'.symm)
  exact List.mem_map_of_mem hmem

/-- In a map no rule is set twice. -/
theorem IsMap.not_sets_false {rules : List (UInt8 × Bool)} (hmap : IsMap rules)
    {rule : RewriteRule} (h : Sets rules rule true) : ¬ Sets rules rule false := by
  obtain ⟨number, hnumber, hmem⟩ := h
  rintro ⟨number', hnumber', hmem'⟩
  obtain rfl := UInt8.toNat_inj.1 (hnumber.trans hnumber'.symm)
  have heq := List.inj_on_of_nodup_map hmap hmem hmem' rfl
  exact Bool.noConfusion (Prod.ext_iff.1 heq).2

/-- All switches are of rules. -/
def KnownRules (rules : List (UInt8 × Bool)) : Prop :=
  ∀ switch ∈ rules, IsRuleNumber switch.1

theorem applyRuleSwitch_eq_error {enabled : Finset RewriteRule} {switch : UInt8 × Bool}
    (h : ¬ IsRuleNumber switch.1) :
    applyRuleSwitch enabled switch = .error (.unknownRule switch.1) := by
  rw [applyRuleSwitch, tryFrom_eq_error h]

/-- **A switch sets its own rule** and no other. -/
theorem exists_applyRuleSwitch_eq_ok (enabled : Finset RewriteRule) {switch : UInt8 × Bool}
    (h : IsRuleNumber switch.1) : ∃ enabled', applyRuleSwitch enabled switch = .ok enabled' ∧
      ∀ rule : RewriteRule, rule ∈ enabled' ↔
        if switch.1.toNat = rule.number then switch.2 = true else rule ∈ enabled := by
  obtain ⟨number, on⟩ := switch
  obtain ⟨switched, hswitched⟩ := h
  have hsame : ∀ rule : RewriteRule, number.toNat = rule.number ↔ rule = switched := fun rule ↦
    ⟨fun h ↦ number_injective (h.symm.trans hswitched.symm), fun h ↦ h ▸ hswitched.symm⟩
  refine ⟨_, by rw [applyRuleSwitch, tryFrom_eq_ok_iff.2 hswitched], fun rule ↦ ?_⟩
  simp only [hsame]
  cases on
  · by_cases heq : rule = switched <;> simp [heq]
  · by_cases heq : rule = switched <;> simp [heq]

/-- The switches end in a number that is not the one of a rule. -/
theorem foldlM_applyRuleSwitch_eq_error (enabled : Finset RewriteRule)
    {rules : List (UInt8 × Bool)} (h : ¬ KnownRules rules) :
    ∃ number, ¬ IsRuleNumber number ∧ number ∈ rules.map Prod.fst ∧
      rules.foldlM applyRuleSwitch enabled = .error (.unknownRule number) := by
  induction rules generalizing enabled with
  | nil => exact absurd (fun switch hmem ↦ absurd hmem List.not_mem_nil) h
  | cons switch rest ih =>
    rw [List.foldlM_cons]
    by_cases hknown : IsRuleNumber switch.1
    · obtain ⟨enabled', hswitch, -⟩ := exists_applyRuleSwitch_eq_ok enabled hknown
      have hrest : ¬ KnownRules rest := fun hrest ↦ h (List.forall_mem_cons.2 ⟨hknown, hrest⟩)
      obtain ⟨number, hnumber, hmem, herror⟩ := ih enabled' hrest
      refine ⟨number, hnumber, List.mem_cons_of_mem _ hmem, ?_⟩
      rw [hswitch]
      exact herror
    · refine ⟨switch.1, hknown, List.mem_cons_self, ?_⟩
      rw [applyRuleSwitch_eq_error hknown]
      rfl

/-- **The switches of a map** set each of their rules and no other, in whatever order they come. -/
theorem exists_foldlM_applyRuleSwitch_eq_ok (enabled : Finset RewriteRule)
    {rules : List (UInt8 × Bool)} (hknown : KnownRules rules) (hmap : IsMap rules) :
    ∃ enabled', rules.foldlM applyRuleSwitch enabled = .ok enabled' ∧ ∀ rule,
      rule ∈ enabled' ↔ Sets rules rule true ∨ rule ∈ enabled ∧ ¬ Sets rules rule false := by
  induction rules generalizing enabled with
  | nil => exact ⟨enabled, rfl, fun rule ↦ by simp [Sets]⟩
  | cons switch rest ih =>
    obtain ⟨hfirst, hrest⟩ := List.forall_mem_cons.1 hknown
    obtain ⟨hnot, hnodup⟩ := List.nodup_cons.1 hmap
    obtain ⟨middle, hswitch, hmiddle⟩ := exists_applyRuleSwitch_eq_ok enabled hfirst
    obtain ⟨enabled', hfold, henabled⟩ := ih middle hrest hnodup
    refine ⟨enabled', ?_, fun rule ↦ ?_⟩
    · rw [List.foldlM_cons, hswitch]
      exact hfold
    rw [henabled, hmiddle, sets_cons_iff, sets_cons_iff]
    by_cases hown : switch.1.toNat = rule.number
    · -- the rest does not mention the rule of this switch
      have hrest : ∀ on, ¬ Sets rest rule on := fun on hsets ↦ hnot (hsets.mem_keys hown)
      simp [hown, hrest]
    · simp [hown]

/-! ### Accepted documents -/

theorem validateLimits_eq_ok_iff {rewrite : RawRewriteConfig} :
    validateLimits rewrite = .ok () ↔
      0 < rewrite.maxDecodedBytes.val ∧ 0 < rewrite.maxConcurrent.val := by
  refine ⟨validateLimits_eq_ok, fun h ↦ ?_⟩
  rw [validateLimits, if_neg h.1.ne', if_neg h.2.ne']

/-- The addresses of a document: they parse, and no address is taken by two of them. -/
structure RawConfig.Addresses (parsers : ConfigParsers) (raw : RawConfig)
    (listen adminListen upstream : SocketAddr) : Prop where
  listen_eq : parsers.socketAddr raw.listen = some listen
  adminListen_eq : parsers.socketAddr raw.adminListen = some adminListen
  upstream_eq : parseUpstream parsers raw.upstream = .ok upstream
  disjoint : listen.Disjoint adminListen
  listen_disjoint : listen.Disjoint upstream
  adminListen_disjoint : adminListen.Disjoint upstream

/-- The three addresses parse, and each pair of them is disjoint. -/
theorem parseAddresses_eq_ok_iff {parsers : ConfigParsers} {raw : RawConfig}
    {listen adminListen upstream : SocketAddr} :
    parseAddresses parsers raw = .ok (listen, adminListen, upstream) ↔
      raw.Addresses parsers listen adminListen upstream := by
  rw [parseAddresses]
  constructor
  · intro h
    rcases hlisten : parsers.socketAddr raw.listen with - | listen'
    · rw [hlisten] at h
      cases h
    rcases hadmin : parsers.socketAddr raw.adminListen with - | adminListen'
    · rw [hlisten, hadmin] at h
      cases h
    simp only [hlisten, hadmin, check_eq_ok_iff, bind_eq_ok_iff, Bool.not_eq_true,
      ← SocketAddr.disjoint_iff] at h
    obtain ⟨hdisjoint, upstream', hupstream, hlistenUpstream, hadminUpstream, h⟩ := h
    cases h
    exact ⟨hlisten, hadmin, hupstream, hdisjoint, hlistenUpstream, hadminUpstream⟩
  · intro h
    simp only [h.listen_eq, h.adminListen_eq, check_eq_ok_iff, bind_eq_ok_iff, Bool.not_eq_true,
      ← SocketAddr.disjoint_iff]
    exact ⟨h.disjoint, upstream, h.upstream_eq, h.listen_disjoint, h.adminListen_disjoint, rfl⟩

/-- **The configuration that a document yields**, said without an order of the checks and of the
switches. -/
structure RawConfig.Yields (parsers : ConfigParsers) (raw : RawConfig) (config : EffectiveConfig) :
    Prop where
  basePath : normalizeBasePath parsers.url raw.basePath = .ok config.basePath
  addresses : raw.Addresses parsers config.listen config.adminListen config.upstream
  enabledExtensions : config.enabledExtensions = raw.rewrite.enabledExtensions
  disabledExtensions : config.disabledExtensions = raw.rewrite.disabledExtensions
  enables : EnablesExtensions raw.rewrite.enabledExtensions
  disables : ExplicitExtensions raw.rewrite.disabledExtensions
  known : KnownRules raw.rewrite.rules
  enabledRules : ∀ rule, rule ∈ config.enabledRules ↔ ¬ Sets raw.rewrite.rules rule false
  maxDecodedBytes : config.maxDecodedBytes = raw.rewrite.maxDecodedBytes
  maxConcurrent : config.maxConcurrent = raw.rewrite.maxConcurrent
  maxQueued : config.maxQueued = raw.rewrite.maxQueued
  maxDecodedBytes_pos : 0 < raw.rewrite.maxDecodedBytes.val
  maxConcurrent_pos : 0 < raw.rewrite.maxConcurrent.val

/-- The parser reads the switches of the rules as a map. -/
def ConfigParsers.ReadsMaps (parsers : ConfigParsers) : Prop :=
  ∀ input raw, parsers.yaml input = .ok raw → IsMap raw.rewrite.rules

/-- The switches of a map, applied to all rules. -/
theorem foldlM_applyRuleSwitch_eq_ok_iff {rules : List (UInt8 × Bool)} (hmap : IsMap rules)
    {enabled : Finset RewriteRule} :
    rules.foldlM applyRuleSwitch RewriteRule.all.toFinset = .ok enabled ↔
      KnownRules rules ∧ ∀ rule, rule ∈ enabled ↔ ¬ Sets rules rule false := by
  by_cases hknown : KnownRules rules
  · obtain ⟨enabled', hfold, henabled⟩ :=
      exists_foldlM_applyRuleSwitch_eq_ok RewriteRule.all.toFinset hknown hmap
    have hsame : ∀ rule, rule ∈ enabled' ↔ ¬ Sets rules rule false := fun rule ↦ by
      rw [henabled, and_iff_right (List.mem_toFinset.2 (mem_all rule)),
        or_iff_right_of_imp hmap.not_sets_false]
    rw [hfold, Except.ok.injEq, and_iff_right hknown, Finset.ext_iff]
    simp only [hsame]
    exact forall_congr' fun rule ↦ iff_comm
  · obtain ⟨number, -, -, hfold⟩ :=
      foldlM_applyRuleSwitch_eq_error RewriteRule.all.toFinset hknown
    rw [hfold]
    exact iff_of_false (fun h ↦ by cases h) fun h ↦ hknown h.1

section

variable {parsers : ConfigParsers} {input : Str} {config : EffectiveConfig}

/-- An accepted document yields the configuration. -/
theorem exists_yields_of_fromYaml (hmap : parsers.ReadsMaps)
    (h : EffectiveConfig.fromYaml parsers input = .ok config) :
    ∃ raw, parsers.yaml input = .ok raw ∧ raw.Yields parsers config := by
  rw [EffectiveConfig.fromYaml] at h
  simp only [bind_eq_ok_iff, mapError_eq_ok_iff] at h
  obtain ⟨raw, hyaml, basePath, hbase, ⟨listen, adminListen, upstream⟩, haddresses, ⟨⟩, hlimits,
    ⟨⟩, hextensions, enabled, hrules, h⟩ := h
  obtain ⟨hknown, henabled⟩ := (foldlM_applyRuleSwitch_eq_ok_iff (hmap input raw hyaml)).1 hrules
  obtain ⟨henables, hdisables⟩ := validateExtensions_eq_ok_iff.1 hextensions
  obtain ⟨hdecoded, hconcurrent⟩ := validateLimits_eq_ok_iff.1 hlimits
  cases h
  exact ⟨raw, hyaml, hbase, parseAddresses_eq_ok_iff.1 haddresses, rfl, rfl, henables, hdisables,
    hknown, henabled, rfl, rfl, rfl, hdecoded, hconcurrent⟩

/-- A document that yields a configuration is accepted with it. -/
theorem RawConfig.Yields.fromYaml_eq_ok {raw : RawConfig} (h : raw.Yields parsers config)
    (hmap : parsers.ReadsMaps) (hyaml : parsers.yaml input = .ok raw) :
    EffectiveConfig.fromYaml parsers input = .ok config := by
  have hrules := (foldlM_applyRuleSwitch_eq_ok_iff (hmap input raw hyaml)).2
    ⟨h.known, h.enabledRules⟩
  rw [EffectiveConfig.fromYaml]
  simp only [bind_eq_ok_iff, mapError_eq_ok_iff]
  refine ⟨raw, hyaml, config.basePath, h.basePath, _, parseAddresses_eq_ok_iff.2 h.addresses, (),
    validateLimits_eq_ok_iff.2 ⟨h.maxDecodedBytes_pos, h.maxConcurrent_pos⟩, (),
    validateExtensions_eq_ok_iff.2 ⟨h.enables, h.disables⟩, config.enabledRules, hrules, ?_⟩
  rw [← h.enabledExtensions, ← h.disabledExtensions, ← h.maxDecodedBytes, ← h.maxConcurrent,
    ← h.maxQueued]
  rfl

/-- The switches come last. -/
theorem fromYaml_eq_error {raw : RawConfig} {basePath : Str}
    {addresses : SocketAddr × SocketAddr × SocketAddr} {error : ConfigError}
    (hyaml : parsers.yaml input = .ok raw)
    (hbase : normalizeBasePath parsers.url raw.basePath = .ok basePath)
    (haddresses : parseAddresses parsers raw = .ok addresses)
    (hlimits : validateLimits raw.rewrite = .ok ())
    (hextensions : validateExtensions raw.rewrite = .ok ())
    (hrules : raw.rewrite.rules.foldlM applyRuleSwitch RewriteRule.all.toFinset = .error error) :
    EffectiveConfig.fromYaml parsers input = .error error := by
  rw [EffectiveConfig.fromYaml, hyaml]
  change (normalizeBasePath parsers.url raw.basePath >>= _) = _
  rw [hbase]
  change (parseAddresses parsers raw >>= _) = _
  rw [haddresses]
  change (validateLimits raw.rewrite >>= _) = _
  rw [hlimits]
  change (validateExtensions raw.rewrite >>= _) = _
  rw [hextensions]
  change (raw.rewrite.rules.foldlM applyRuleSwitch RewriteRule.all.toFinset >>= _) = _
  rw [hrules]
  rfl

/-- **Acceptance**: `from_yaml` accepts exactly the documents that yield a configuration. -/
theorem fromYaml_eq_ok_iff (hmap : parsers.ReadsMaps) :
    EffectiveConfig.fromYaml parsers input = .ok config ↔
      ∃ raw, parsers.yaml input = .ok raw ∧ raw.Yields parsers config := by
  constructor
  · exact exists_yields_of_fromYaml hmap
  · rintro ⟨raw, hyaml, h⟩
    exact h.fromYaml_eq_ok hmap hyaml

/-! ### The policy of an accepted document -/

/-- A rule is on unless a switch turns it off. -/
theorem RawConfig.Yields.isRuleEnabled_iff {raw : RawConfig} (h : raw.Yields parsers config)
    {rule : RewriteRule} : config.rewritePolicy.isRuleEnabled rule = true ↔
      ¬ Sets raw.rewrite.rules rule false := by
  rw [← h.enabledRules]
  simp only [RewritePolicy.isRuleEnabled, EffectiveConfig.rewritePolicy,
    RewritePolicy.newWithRules, decide_eq_true_eq, List.mem_toFinset, List.mem_filter]
  exact and_iff_right (mem_all rule)

/-- An extension is on if its name is safe, it is not disabled, and it is enabled by name or by the
wildcard. -/
theorem RawConfig.Yields.isExtensionEnabled_iff {raw : RawConfig}
    (h : raw.Yields parsers config) {extension : Str} :
    config.rewritePolicy.isExtensionEnabled extension = true ↔
      isSafeExtensionName extension = true ∧ extension ∉ raw.rewrite.disabledExtensions ∧
        (raw.rewrite.enabledExtensions = [allExtensionsWildcard] ∨
          extension ∈ raw.rewrite.enabledExtensions) := by
  simp only [RewritePolicy.isExtensionEnabled, EffectiveConfig.rewritePolicy,
    RewritePolicy.newWithRules, h.enabledExtensions, h.disabledExtensions, Bool.and_eq_true,
    decide_eq_true_eq, List.mem_toFinset, and_assoc]
  refine and_congr_right fun _ ↦ and_congr_right fun _ ↦ ?_
  rcases h.enables with hall | hexplicit
  · rw [hall]
    simp
  · have hnot := hexplicit.not_mem_allExtensionsWildcard
    rw [if_neg fun hwildcard ↦ hnot hwildcard.2, or_iff_right]
    · simp only [decide_eq_true_eq, List.mem_toFinset]
    · exact fun heq ↦ hnot (heq ▸ List.mem_singleton_self _)

/-- **The policy** of an accepted document: all rules but those it switches off, and safe extensions
that it enables and does not disable. -/
theorem policy_of_fromYaml (hmap : parsers.ReadsMaps)
    (h : EffectiveConfig.fromYaml parsers input = .ok config) :
    ∃ raw, parsers.yaml input = .ok raw ∧
      (∀ rule, config.rewritePolicy.isRuleEnabled rule = true ↔
        ¬ Sets raw.rewrite.rules rule false) ∧
      ∀ extension, config.rewritePolicy.isExtensionEnabled extension = true ↔
        isSafeExtensionName extension = true ∧ extension ∉ raw.rewrite.disabledExtensions ∧
          (raw.rewrite.enabledExtensions = [allExtensionsWildcard] ∨
            extension ∈ raw.rewrite.enabledExtensions) := by
  obtain ⟨raw, hyaml, hyields⟩ := exists_yields_of_fromYaml hmap h
  exact ⟨raw, hyaml, fun _ ↦ hyields.isRuleEnabled_iff, fun _ ↦ hyields.isExtensionEnabled_iff⟩

end

/-! ### The order of the switches -/

/-- The document with other switches. -/
def RawConfig.withRules (raw : RawConfig) (rules : List (UInt8 × Bool)) : RawConfig :=
  { raw with rewrite := { raw.rewrite with rules := rules } }

/-- The parsers of a process that iterates maps in the given order. -/
def ConfigParsers.iterating (parsers : ConfigParsers)
    (order : List (UInt8 × Bool) → List (UInt8 × Bool)) : ConfigParsers :=
  { parsers with
    yaml := fun input ↦
      (parsers.yaml input).map fun raw ↦ raw.withRules (order raw.rewrite.rules) }

theorem ConfigParsers.yaml_iterating {parsers : ConfigParsers}
    {order : List (UInt8 × Bool) → List (UInt8 × Bool)} {input : Str} :
    (parsers.iterating order).yaml input =
      (parsers.yaml input).map fun raw ↦ raw.withRules (order raw.rewrite.rules) :=
  rfl

theorem parseAddresses_iterating {parsers : ConfigParsers}
    {order : List (UInt8 × Bool) → List (UInt8 × Bool)} {raw : RawConfig}
    {rules : List (UInt8 × Bool)} :
    parseAddresses (parsers.iterating order) (raw.withRules rules) = parseAddresses parsers raw :=
  rfl

/-- The document contains the number, which is not the one of a rule. -/
def ConfigParsers.Mistakes (parsers : ConfigParsers) (input : Str) (number : UInt8) : Prop :=
  ∃ raw, parsers.yaml input = .ok raw ∧ number ∈ raw.rewrite.rules.map Prod.fst ∧
    ¬ IsRuleNumber number

/-- Two outcomes that are the same, or report one of the mistakes each. -/
inductive SameOutcome {α : Type} (mistakes : UInt8 → Prop) :
    Except ConfigError α → Except ConfigError α → Prop
  | same (outcome : Except ConfigError α) : SameOutcome mistakes outcome outcome
  | unknownRule {number number' : UInt8} (h : mistakes number) (h' : mistakes number') :
    SameOutcome mistakes (.error (.unknownRule number)) (.error (.unknownRule number'))

section

variable {α β : Type} {mistakes : UInt8 → Prop}

/-- What follows a check keeps two outcomes alike. -/
theorem SameOutcome.bind {x x' : Except ConfigError α} (h : SameOutcome mistakes x x')
    (f : α → Except ConfigError β) : SameOutcome mistakes (x >>= f) (x' >>= f) := by
  cases h with
  | same => exact .same _
  | unknownRule h h' => exact .unknownRule h h'

/-- Two continuations that are alike behind one check are alike. -/
theorem SameOutcome.bind_right (x : Except ConfigError α) {f f' : α → Except ConfigError β}
    (h : ∀ a, x = .ok a → SameOutcome mistakes (f a) (f' a)) :
    SameOutcome mistakes (x >>= f) (x >>= f') := by
  cases x with
  | error e => exact .same _
  | ok a => exact h a rfl

end

/-- What is set does not depend on the order. -/
theorem sets_iff_of_perm {rules rules' : List (UInt8 × Bool)} (h : rules'.Perm rules)
    {rule : RewriteRule} {on : Bool} : Sets rules' rule on ↔ Sets rules rule on :=
  exists_congr fun _ ↦ and_congr_right fun _ ↦ h.mem_iff

/-- The switches of a map in two orders. -/
theorem sameOutcome_foldlM {rules rules' : List (UInt8 × Bool)} (hmap : IsMap rules)
    (hperm : rules'.Perm rules) {mistakes : UInt8 → Prop}
    (hmistakes : ∀ number ∈ rules.map Prod.fst, ¬ IsRuleNumber number → mistakes number) :
    SameOutcome mistakes (rules.foldlM applyRuleSwitch RewriteRule.all.toFinset)
      (rules'.foldlM applyRuleSwitch RewriteRule.all.toFinset) := by
  have hkeys := hperm.map Prod.fst
  have hmap' : IsMap rules' := hkeys.nodup_iff.2 hmap
  have hsets : ∀ rule, ¬ Sets rules' rule false ↔ ¬ Sets rules rule false :=
    fun rule ↦ not_congr (sets_iff_of_perm hperm)
  by_cases hknown : KnownRules rules
  · have hknown' : KnownRules rules' := fun switch hmem ↦ hknown switch (hperm.mem_iff.1 hmem)
    obtain ⟨enabled, hfold, -⟩ :=
      exists_foldlM_applyRuleSwitch_eq_ok RewriteRule.all.toFinset hknown hmap
    have henabled := ((foldlM_applyRuleSwitch_eq_ok_iff hmap).1 hfold).2
    have hfold' := (foldlM_applyRuleSwitch_eq_ok_iff hmap').2
      ⟨hknown', fun rule ↦ (henabled rule).trans (hsets rule).symm⟩
    rw [hfold, hfold']
    exact .same _
  · have hknown' : ¬ KnownRules rules' :=
      fun h ↦ hknown fun switch hmem ↦ h switch (hperm.mem_iff.2 hmem)
    obtain ⟨number, hnumber, hmem, hfold⟩ :=
      foldlM_applyRuleSwitch_eq_error RewriteRule.all.toFinset hknown
    obtain ⟨number', hnumber', hmem', hfold'⟩ :=
      foldlM_applyRuleSwitch_eq_error RewriteRule.all.toFinset hknown'
    rw [hfold, hfold']
    exact .unknownRule (hmistakes number hmem hnumber)
      (hmistakes number' (hkeys.mem_iff.1 hmem') hnumber')

/-- **The order of the map** decides at most which unknown rule is reported. -/
theorem sameOutcome_iterating {parsers : ConfigParsers} (hmap : parsers.ReadsMaps)
    {order : List (UInt8 × Bool) → List (UInt8 × Bool)}
    (horder : ∀ rules, (order rules).Perm rules) (input : Str) :
    SameOutcome (parsers.Mistakes input) (EffectiveConfig.fromYaml parsers input)
      (EffectiveConfig.fromYaml (parsers.iterating order) input) := by
  rw [EffectiveConfig.fromYaml, EffectiveConfig.fromYaml, ConfigParsers.yaml_iterating]
  cases hyaml : parsers.yaml input with
  | error e => exact .same _
  | ok raw =>
    -- the documents differ in their switches only, so the steps before them are the same
    refine .bind_right (normalizeBasePath parsers.url raw.basePath) fun basePath _ ↦ ?_
    refine .bind_right (parseAddresses parsers raw) fun addresses _ ↦ ?_
    refine .bind_right (validateLimits raw.rewrite) fun _ _ ↦ ?_
    refine .bind_right (validateExtensions raw.rewrite) fun _ _ ↦ ?_
    refine SameOutcome.bind (sameOutcome_foldlM (hmap input raw hyaml) (horder raw.rewrite.rules)
      fun number hmem hnumber ↦ ⟨raw, hyaml, hmem, hnumber⟩) _

/-! ### Two documents -/

/-- A document that switches two rules off. -/
def switchesDocument (first second : String) : Str :=
  str "client:\n  basePath: /regions/r1/\nrewriteSidecar:\n  listen: 0.0.0.0:8080\n"
    ++ str "  upstream: http://localhost:8000\n  rewrite:\n    rules:\n      "
    ++ str first ++ str ": false\n      " ++ str second ++ str ": false\n"

/-- What it contains, with the defaults of `config.rs`. -/
def switchesRaw (rules : List (UInt8 × Bool)) : RawConfig where
  basePath := str "/regions/r1/"
  listen := str "0.0.0.0:8080"
  adminListen := str "0.0.0.0:9090"
  upstream := str "http://localhost:8000"
  rewrite :=
    { enabledExtensions := []
      disabledExtensions := []
      rules := rules
      maxDecodedBytes := ⟨20 * 1024 * 1024, by decide⟩
      maxConcurrent := ⟨4, by decide⟩
      maxQueued := ⟨32, by decide⟩ }

/-- The parsers on the documents that switch the rules 2 and 5, and 0 and 7. -/
def switchesParsers : ConfigParsers where
  yaml input :=
    if input = switchesDocument "2" "5" then .ok (switchesRaw [(2, false), (5, false)])
    else if input = switchesDocument "0" "7" then .ok (switchesRaw [(0, false), (7, false)])
    else .error []
  parseUrl value :=
    if value = str "http://localhost:8000" then
      some { scheme := str "http", username := [], password := none, query := none,
             fragment := none, path := str "/", hostStr := some (str "localhost"),
             port := some 8000 }
    else none
  socketAddr value :=
    if value = str "0.0.0.0:8080" then some { ip := .v4 0, port := 8080 }
    else if value = str "0.0.0.0:9090" then some { ip := .v4 0, port := 9090 }
    else none
  url := .unreserved

theorem switchesParsers_readsMaps : switchesParsers.ReadsMaps := by
  intro input raw h
  simp only [switchesParsers] at h
  split at h
  · cases h
    exact List.nodup_cons.2 ⟨by decide, List.nodup_singleton _⟩
  split at h
  · cases h
    exact List.nodup_cons.2 ⟨by decide, List.nodup_singleton _⟩
  · cases h

theorem yaml_switchesParsers : switchesParsers.yaml (switchesDocument "2" "5") =
    .ok (switchesRaw [(2, false), (5, false)]) := by
  simp only [switchesParsers, if_true]

theorem yaml_switchesParsers_mistaken : switchesParsers.yaml (switchesDocument "0" "7") =
    .ok (switchesRaw [(0, false), (7, false)]) := by
  have hne : switchesDocument "0" "7" ≠ switchesDocument "2" "5" := by decide +kernel
  simp only [switchesParsers, if_neg hne, if_true]

/-- The configuration without the rules 2 and 5. -/
def switchesConfig : EffectiveConfig where
  basePath := str "/regions/r1"
  listen := { ip := .v4 0, port := 8080 }
  adminListen := { ip := .v4 0, port := 9090 }
  upstream := { ip := .v4 0x7F000001, port := 8000 }
  enabledExtensions := []
  disabledExtensions := []
  enabledRules := {.consoleV3, .frontendIndexJsBundle, .namedProxyHtml, .kubekeyAssetJs}
  maxDecodedBytes := ⟨20 * 1024 * 1024, by decide⟩
  maxConcurrent := ⟨4, by decide⟩
  maxQueued := ⟨32, by decide⟩

theorem parseAddresses_switchesRaw (rules : List (UInt8 × Bool)) :
    parseAddresses switchesParsers (switchesRaw rules) =
      .ok (switchesConfig.listen, switchesConfig.adminListen, switchesConfig.upstream) := by
  have h : parseAddresses switchesParsers (switchesRaw []) =
      .ok (switchesConfig.listen, switchesConfig.adminListen, switchesConfig.upstream) := by
    decide +kernel
  exact h

theorem explicitExtensions_nil : ExplicitExtensions [] :=
  ⟨fun _ hmem ↦ absurd hmem List.not_mem_nil, List.nodup_nil⟩

/-- The document with two switches yields a configuration without the two rules. -/
theorem yields_switchesRaw :
    (switchesRaw [(2, false), (5, false)]).Yields switchesParsers switchesConfig where
  basePath := normalizeBasePath_unreserved
  addresses := parseAddresses_eq_ok_iff.1 (parseAddresses_switchesRaw _)
  enabledExtensions := rfl
  disabledExtensions := rfl
  enables := Or.inr explicitExtensions_nil
  disables := explicitExtensions_nil
  known := by
    intro switch hmem
    rcases List.mem_cons.1 hmem with rfl | hmem
    · exact ⟨.jsBundle, rfl⟩
    · obtain rfl := List.mem_singleton.1 hmem
      exact ⟨.ys1000Html, rfl⟩
  enabledRules := by
    intro rule
    have hnil : ¬ Sets [] rule false := fun h ↦ by
      obtain ⟨number, -, hmem⟩ := h
      exact List.not_mem_nil hmem
    rw [switchesRaw, sets_cons_iff, sets_cons_iff, or_iff_left hnil]
    cases rule <;> decide
  maxDecodedBytes := rfl
  maxConcurrent := rfl
  maxQueued := rfl
  maxDecodedBytes_pos := by decide
  maxConcurrent_pos := by decide

theorem fromYaml_eq_ok_iff_switches :
    EffectiveConfig.fromYaml switchesParsers (switchesDocument "2" "5") = .ok switchesConfig :=
  (fromYaml_eq_ok_iff switchesParsers_readsMaps).2
    ⟨_, yaml_switchesParsers, yields_switchesRaw⟩

theorem policy_of_fromYaml_switches :
    ∃ raw, switchesParsers.yaml (switchesDocument "2" "5") = .ok raw ∧
      (∀ rule, switchesConfig.rewritePolicy.isRuleEnabled rule = true ↔
        ¬ Sets raw.rewrite.rules rule false) ∧
      ∀ extension, switchesConfig.rewritePolicy.isExtensionEnabled extension = true ↔
        isSafeExtensionName extension = true ∧ extension ∉ raw.rewrite.disabledExtensions ∧
          (raw.rewrite.enabledExtensions = [allExtensionsWildcard] ∨
            extension ∈ raw.rewrite.enabledExtensions) :=
  policy_of_fromYaml switchesParsers_readsMaps
    (yields_switchesRaw.fromYaml_eq_ok switchesParsers_readsMaps yaml_switchesParsers)

/-- Two unknown rules: each order reports the first that it meets. -/
theorem sameOutcome_iterating_mistaken :
    SameOutcome (switchesParsers.Mistakes (switchesDocument "0" "7"))
        (EffectiveConfig.fromYaml switchesParsers (switchesDocument "0" "7"))
        (EffectiveConfig.fromYaml (switchesParsers.iterating List.reverse)
          (switchesDocument "0" "7")) ∧
      EffectiveConfig.fromYaml switchesParsers (switchesDocument "0" "7") =
        .error (.unknownRule 0) ∧
      EffectiveConfig.fromYaml (switchesParsers.iterating List.reverse)
        (switchesDocument "0" "7") = .error (.unknownRule 7) := by
  refine ⟨sameOutcome_iterating switchesParsers_readsMaps List.reverse_perm _, ?_, ?_⟩
  · exact fromYaml_eq_error yaml_switchesParsers_mistaken normalizeBasePath_unreserved
      (parseAddresses_switchesRaw _) rfl rfl (by decide +kernel)
  · have hyaml : (switchesParsers.iterating List.reverse).yaml (switchesDocument "0" "7") =
        .ok ((switchesRaw [(0, false), (7, false)]).withRules [(7, false), (0, false)]) := by
      rw [ConfigParsers.yaml_iterating, yaml_switchesParsers_mistaken]
      rfl
    exact fromYaml_eq_error hyaml normalizeBasePath_unreserved
      (parseAddresses_iterating.trans (parseAddresses_switchesRaw _)) rfl rfl (by decide +kernel)

end KseRewriteProxy
