/-
Module: VesselHub.Proofs.Path.Resolve
Purpose: Resolved paths. The local id of a valid configuration is a plain key other than the alias,
  so resolving a path once more changes nothing, and its text and its keys agree.
Main exports: Resolver.IsValid, Path.IsResolved, Resolver.isResolved_resolve,
  Resolver.segments_resolvePath, Resolver.resolve_text, Resolver.segments_selfContext,
  Config.resolves_coherently
-/
import VesselHub.Config.Basic
import VesselHub.Proofs.Path.Dotted

namespace VesselHub

namespace Text

private theorem dropStartChars?_eq_some {start characters rest : List Char}
    (dropped : dropStartChars? start characters = some rest) : characters = start ++ rest := by
  fun_induction dropStartChars? start characters with
  | case1 characters => exact Option.some.inj dropped
  | case2 => cases dropped
  | case3 start character characters induction_step =>
      rw [induction_step dropped, List.cons_append]
  | case4 => cases dropped

/-- What is left of a text that begins with another one follows it. -/
theorem dropStart?_eq_some {start text rest : String}
    (dropped : dropStart? start text = some rest) : text = start ++ rest := by
  obtain ⟨characters, left, rfl⟩ := Option.map_eq_some_iff.1 dropped
  apply String.toList_inj.1
  rw [dropStartChars?_eq_some left, String.toList_append, String.toList_ofList]

end Text

/-- The keys of a vessel that is stored under the alias. -/
def aliasKeys : List String := [vesselsKey, selfKey]

/-- The local id is a plain key and not the alias itself. -/
structure Resolver.IsValid (resolver : Resolver) : Prop where
  plain : Path.IsPlain resolver.selfId
  not_alias : resolver.selfId ≠ selfKey

theorem Config.isValid_resolver {config : Config} (valid : config.validate = .ok ()) :
    config.resolver.IsValid := by
  unfold validate at valid
  simp only at valid
  split at valid
  · cases valid
  · rename_i one_segment
    split at valid
    · cases valid
    · rename_i not_alias
      exact ⟨not_or.1 one_segment, not_alias⟩

/-- The keys of a path are plain and do not begin with the alias of the local vessel. -/
structure Path.IsResolved (path : Path) : Prop where
  plain : ∀ key ∈ path.segments, Path.IsPlain key
  no_alias : ∀ rest, path.segments ≠ vesselsKey :: selfKey :: rest
  raw : Path.segmentsOf path.raw = path.segments

namespace Resolver

variable {resolver : Resolver} {path : Path}

theorem resolvePath_of_no_alias (no_alias : ∀ rest, path.segments ≠ vesselsKey :: selfKey :: rest) :
    resolver.resolvePath path = path := by
  unfold resolvePath
  split
  · rename_i first second rest segments
    refine if_neg fun is_alias => no_alias rest ?_
    rw [segments, is_alias.1, is_alias.2]
  · rfl

/-- Only the alias of the local vessel is replaced. -/
theorem segments_resolvePath (resolver : Resolver) (path : Path) :
    (resolver.resolvePath path).segments =
      if aliasKeys <+: path.segments then path.segments.set 1 resolver.selfId
      else path.segments := by
  by_cases is_alias : aliasKeys <+: path.segments
  · obtain ⟨rest, segments⟩ := is_alias
    rw [if_pos ⟨rest, segments⟩, resolvePath, ← segments]
    rfl
  · rw [if_neg is_alias, resolvePath_of_no_alias]
    exact fun rest segments => is_alias ⟨rest, segments.symm⟩

/-- What a text is resolved to is resolved. -/
theorem isResolved_resolve (valid : resolver.IsValid) (text : String) :
    (resolver.resolve text).IsResolved := by
  have text_plain : ∀ key ∈ Path.segmentsOf text, Path.IsPlain key :=
    fun _ => Path.plain_of_mem_segmentsOf
  by_cases is_alias : ∃ rest, Path.segmentsOf text = vesselsKey :: selfKey :: rest
  · obtain ⟨rest, segments⟩ := is_alias
    have resolved : resolver.resolve text =
        { raw := Path.dotted (vesselsKey :: resolver.selfId :: rest)
          segments := vesselsKey :: resolver.selfId :: rest } := by
      rw [resolve, resolvePath, Path.ofText, segments]
      simp
    rw [segments] at text_plain
    have plain : ∀ key ∈ vesselsKey :: resolver.selfId :: rest, Path.IsPlain key := by
      rw [List.forall_mem_cons, List.forall_mem_cons] at text_plain ⊢
      exact ⟨text_plain.1, valid.plain, text_plain.2.2⟩
    rw [resolved]
    refine ⟨plain, fun others same => ?_, Path.segmentsOf_dotted_of_plain plain⟩
    simp only [List.cons.injEq, true_and] at same
    exact valid.not_alias same.1
  · rw [not_exists] at is_alias
    rw [resolve, resolvePath_of_no_alias is_alias]
    exact ⟨text_plain, is_alias, rfl⟩

/-- Keys that begin with the alias lead to the local vessel. -/
theorem segments_resolve_alias (resolver : Resolver) {rest : List String}
    (plain : ∀ key ∈ aliasKeys ++ rest, Path.IsPlain key) :
    (resolver.resolve (Path.dotted (aliasKeys ++ rest))).segments =
      vesselsKey :: resolver.selfId :: rest := by
  have cut : (Path.ofText (Path.dotted (aliasKeys ++ rest))).segments = aliasKeys ++ rest :=
    Path.segmentsOf_dotted_of_plain plain
  rw [resolve, segments_resolvePath, cut, if_pos ⟨rest, rfl⟩]
  rfl

/-- Resolving keeps the number of keys. -/
theorem length_segments_resolve (resolver : Resolver) (text : String) :
    (resolver.resolve text).segments.length = (Path.ofText text).segments.length := by
  rw [resolve, segments_resolvePath]
  split
  · exact List.length_set
  · rfl

/-- Resolving the raw text of a resolved path changes nothing. -/
theorem resolve_raw_eq (resolved : path.IsResolved) : resolver.resolve path.raw = path := by
  have read_back : Path.ofText path.raw = path := by
    rw [Path.ofText, resolved.raw]
  rw [resolve, read_back, resolvePath_of_no_alias resolved.no_alias]

/-- Resolving the raw text of a resolved path leads to the same keys. -/
theorem resolve_raw (resolved : path.IsResolved) :
    (resolver.resolve path.raw).segments = path.segments := by
  rw [resolve_raw_eq resolved]

/-- The plain text of a resolved path is resolved, and leads to the same keys. -/
theorem resolve_text (resolver : Resolver) (resolved : path.IsResolved) :
    (resolver.resolve path.text).segments = path.segments ∧
      (resolver.resolve path.text).IsResolved := by
  have cut : Path.segmentsOf path.text = path.segments :=
    Path.segmentsOf_dotted_of_plain resolved.plain
  have same : resolver.resolve path.text = Path.ofText path.text := by
    apply resolvePath_of_no_alias
    rw [Path.ofText, cut]
    exact resolved.no_alias
  rw [same]
  exact ⟨cut, by rw [Path.ofText, cut]; exact resolved.plain,
    by rw [Path.ofText, cut]; exact resolved.no_alias, rfl⟩

theorem selfContext_eq (resolver : Resolver) :
    resolver.selfContext = Path.dotted [vesselsKey, resolver.selfId] := by
  apply String.toList_inj.1
  simp [selfContext, Path.dotted, Text.join, Text.joinChars, vesselsKey]

theorem segments_ofText_selfContext (valid : resolver.IsValid) :
    (Path.ofText resolver.selfContext).segments = [vesselsKey, resolver.selfId] := by
  have plain : ∀ key ∈ [vesselsKey, resolver.selfId], Path.IsPlain key := by
    rw [List.forall_mem_cons, List.forall_mem_cons]
    exact ⟨by decide, valid.plain, nofun⟩
  rw [Path.ofText, selfContext_eq, Path.segmentsOf_dotted_of_plain plain]

/-- The context of the local vessel leads along two keys. -/
theorem segments_selfContext (valid : resolver.IsValid) :
    (resolver.resolve resolver.selfContext).segments = [vesselsKey, resolver.selfId] := by
  have cut := segments_ofText_selfContext valid
  rw [resolve, resolvePath_of_no_alias, cut]
  intro rest is_alias
  rw [cut, List.cons.injEq, List.cons.injEq] at is_alias
  exact valid.not_alias is_alias.2.1

/-- The alias alone names the local vessel. -/
theorem resolve_alias (valid : resolver.IsValid) :
    resolver.resolve "vessels.self" = Path.ofText resolver.selfContext := by
  have cut : (Path.ofText "vessels.self").segments = aliasKeys := by decide
  have context : Path.ofText resolver.selfContext =
      { raw := Path.dotted [vesselsKey, resolver.selfId]
        segments := [vesselsKey, resolver.selfId] } := by
    rw [← selfContext_eq, ← segments_ofText_selfContext valid]
    rfl
  rw [resolve, resolvePath, cut, context]
  rfl

/-- A path may be given in pieces, however its keys are put together. -/
theorem segments_resolveParts (resolver : Resolver) {text : String} {groups : List (List String)}
    (cut : groups.flatten = (Path.ofText text).segments) :
    (resolver.resolveParts (groups.map Path.dotted)).segments =
      (resolver.resolve text).segments := by
  have plain : ∀ key ∈ groups.flatten, Path.IsPlain key := fun _ member =>
    Path.plain_of_mem_segmentsOf (cut ▸ member)
  have same : (Path.ofParts (groups.map Path.dotted)).segments = (Path.ofText text).segments :=
    calc (groups.map Path.dotted).flatMap Path.segmentsOf
      _ = groups.flatMap fun group => Path.segmentsOf (Path.dotted group) :=
        List.flatMap_map ..
      _ = groups.flatMap fun group => group.flatMap Path.segmentsOf := by
        simp only [Path.segmentsOf_dotted]
      _ = groups.flatten.flatMap Path.segmentsOf := by
        rw [List.flatten_eq_flatMap, List.flatMap_assoc]
        rfl
      _ = (Path.ofText text).segments := by rw [Path.flatMap_segmentsOf plain, cut]
  rw [resolveParts, resolve, segments_resolvePath, segments_resolvePath, same]

end Resolver

/-! ### Valid settings -/

namespace Config

variable {config : Config}

/-- The local id is given alone or as a context. -/
theorem selfId_eq (config : Config) :
    config.selfId = config.bareId ∨ config.selfId = "vessels." ++ config.bareId := by
  rw [bareId]
  cases dropped : Text.dropStart? "vessels." config.selfId with
  | none => exact Or.inl rfl
  | some rest => exact Or.inr (Text.dropStart?_eq_some dropped)

/-- With valid settings, every text is resolved to its own keys, save that the bare id takes the
place of the alias. The text of the result spells the same keys, and resolving it again changes
nothing. The alias alone names the context of the settings, and a path may be given in pieces. -/
theorem resolves_coherently (valid : config.validate = .ok ()) (text : String) :
    let resolver := Resolver.ofText config.selfId
    let keys := (Path.ofText text).segments
    let resolved := resolver.resolve text
    (config.selfId = config.bareId ∨ config.selfId = "vessels." ++ config.bareId) ∧
      resolved.segments =
        (if aliasKeys <+: keys then keys.set 1 config.bareId else keys) ∧
      (Path.ofText resolved.raw).segments = resolved.segments ∧
      resolver.resolve resolved.raw = resolved ∧
      resolver.resolvePath resolved = resolved ∧
      ¬ aliasKeys <+: resolved.segments ∧
      resolver.selfContext = config.selfContext ∧
      (Path.ofText config.selfContext).segments = [vesselsKey, config.bareId] ∧
      resolver.resolve "vessels.self" = Path.ofText config.selfContext ∧
      ∀ groups : List (List String), groups.flatten = keys →
        (resolver.resolveParts (groups.map Path.dotted)).segments = resolved.segments := by
  intro resolver keys resolved
  have resolver_valid : resolver.IsValid := isValid_resolver valid
  have is_resolved : resolved.IsResolved := Resolver.isResolved_resolve resolver_valid text
  exact ⟨config.selfId_eq, Resolver.segments_resolvePath resolver _, is_resolved.raw,
    Resolver.resolve_raw_eq is_resolved, Resolver.resolvePath_of_no_alias is_resolved.no_alias,
    fun ⟨rest, starts⟩ => is_resolved.no_alias rest starts.symm, rfl,
    Resolver.segments_ofText_selfContext resolver_valid, Resolver.resolve_alias resolver_valid,
    fun _ cut => Resolver.segments_resolveParts resolver cut⟩

/-- A hub whose local id is given as a context finds the name of its vessel from stray dots and from
pieces of the path. -/
theorem name_of_gull :
    let config : Config := { standard with selfId := "vessels.gull" }
    let resolver := Resolver.ofText config.selfId
    config.validate = .ok () ∧
      (resolver.resolve ".vessels..self.name").segments = ["vessels", "gull", "name"] ∧
      resolver.resolve (resolver.resolve ".vessels..self.name").raw =
        resolver.resolve ".vessels..self.name" ∧
      resolver.resolve "vessels.self" = Path.ofText "vessels.gull" ∧
      (resolver.resolveParts ["vessels.self", "", "name"]).segments =
        ["vessels", "gull", "name"] := by
  intro config resolver
  have bare : config.bareId = "gull" := by decide +kernel
  have valid : config.validate = .ok () := by
    rw [validate, bare]
    rfl
  obtain ⟨-, keys_eq, -, again, -, -, -, -, alias_eq, pieces⟩ :=
    resolves_coherently valid ".vessels..self.name"
  have keys : (resolver.resolve ".vessels..self.name").segments = ["vessels", "gull", "name"] :=
    keys_eq.trans (by decide +kernel)
  have in_pieces := pieces [["vessels", "self"], [], ["name"]] (by decide +kernel)
  refine ⟨valid, keys, again, alias_eq.trans (by decide +kernel), ?_⟩
  exact (congrArg _ (by decide +kernel)).trans (in_pieces.trans keys)

end Config

end VesselHub
