/-
Module: VesselHub.Proofs.Path.Private
Purpose: Which keys make a path private. The parts of a path are told apart by its dots, so a key
  with dots of its own can spell a private key without being one.
Main exports: Path.spellsPrivate, Path.isPrivate_join, Path.IsSpelled, Path.ofParts_eq_join_iff,
  Resolver.isSpelled_resolve, Resolver.any_spellsPrivate_resolve
-/
import VesselHub.Proofs.Path.Dotted

namespace VesselHub

namespace Path

/-- Whether one of the keys that a key is cut into, when a path is read again, is private. -/
def spellsPrivate (key : String) : Bool :=
  (segmentsOf key).any isPrivateKey

/-- A key with a private part is private itself. -/
def HidesWhole (key : String) : Prop :=
  spellsPrivate key = true → isPrivateKey key = true

instance (key : String) : Decidable (HidesWhole key) :=
  inferInstanceAs (Decidable (_ → _))

variable {key : String}

theorem spellsPrivate_of_plain (plain : IsPlain key) : spellsPrivate key = isPrivateKey key := by
  rw [spellsPrivate, segmentsOf_of_plain plain, List.any_cons, List.any_nil, Bool.or_false]

theorem hidesWhole_of_plain (plain : IsPlain key) : HidesWhole key := by
  rw [HidesWhole, spellsPrivate_of_plain plain]
  exact id

theorem isPrivate_ofText (text : String) : (ofText text).isPrivate = spellsPrivate text := rfl

theorem isPrivate_ofParts (keys : List String) :
    (ofParts keys).isPrivate = keys.any spellsPrivate :=
  List.any_flatMap

theorem spellsPrivate_dotted (keys : List String) :
    spellsPrivate (dotted keys) = keys.any spellsPrivate := by
  rw [spellsPrivate, segmentsOf_dotted]
  exact isPrivate_ofParts keys

/-- Keys that have been cut out of a text are not cut any further. -/
theorem any_segmentsOf (text : String) :
    (segmentsOf text).any spellsPrivate = spellsPrivate text := by
  rw [← isPrivate_ofParts, isPrivate, ofParts,
    flatMap_segmentsOf fun _ => plain_of_mem_segmentsOf, spellsPrivate]

theorem isPrivate_join (path : Path) (rest : String) :
    (path.join rest).isPrivate = (path.segments.any spellsPrivate || spellsPrivate rest) := by
  rw [join, isPrivate_ofParts, List.any_append, any_segmentsOf]

/-- The plain form of a joined path reads like the path. -/
theorem isPrivate_text_join (path : Path) (rest : String) :
    (ofText (path.join rest).text).isPrivate = (path.join rest).isPrivate := by
  rw [isPrivate_ofText, spellsPrivate, text, join, segmentsOf_dotted_of_plain (plain_ofParts _),
    isPrivate]

/-! ### Positions -/

/-- A private key is no position. -/
theorem position?_of_private (hidden : isPrivateKey key = true) : position? key = none := by
  rw [isPrivateKey, decide_eq_true_eq, List.head?_eq_some_iff] at hidden
  obtain ⟨rest, characters⟩ := hidden
  rw [position?]
  simp [characters]

private theorem plain_of_position? {position : Nat} (named : position? key = some position) :
    IsPlain key := by
  have no_dot {digits : List Char} (valid : ¬ (digits.isEmpty ∨ ¬ digits.all Char.isDigit)) :
      '.' ∉ digits := by
    rw [not_or, Classical.not_not, List.all_eq_true] at valid
    exact fun dotted => absurd (valid.2 '.' dotted) (by decide)
  constructor
  · rintro rfl
    cases named
  · intro dotted
    rw [position?] at named
    split at named
    · rename_i rest characters
      dsimp only at named
      split at named
      · cases named
      · rename_i digits
        rw [characters, List.mem_cons] at dotted
        exact no_dot digits (dotted.resolve_left (by decide))
    · dsimp only at named
      split at named
      · cases named
      · rename_i digits
        exact no_dot digits dotted

theorem spellsPrivate_of_position? {position : Nat} (named : position? key = some position) :
    spellsPrivate key = false := by
  rw [spellsPrivate_of_plain (plain_of_position? named), Bool.eq_false_iff]
  intro hidden
  rw [position?_of_private hidden] at named
  cases named

theorem spellsPrivate_positionKey (position : Nat) :
    spellsPrivate (positionKey position) = false := by
  rw [spellsPrivate_of_plain (plain_positionKey position), isPrivateKey, positionKey,
    String.toList_ofList, decide_eq_false_iff_not]
  intro first
  have digit := Nat.isDigit_of_mem_toDigits (by decide) (by decide) (List.mem_of_head? first)
  exact absurd digit (by decide)

/-! ### Texts of paths -/

/-- The text of a path spells its keys, each of them cut at its dots. -/
def IsSpelled (path : Path) : Prop :=
  segmentsOf path.raw = path.segments.flatMap segmentsOf

theorem isSpelled_ofParts (parts : List String) : (ofParts parts).IsSpelled :=
  segmentsOf_dotted _

theorem IsSpelled.spellsPrivate_raw {path : Path} (spelled : path.IsSpelled) :
    spellsPrivate path.raw = path.segments.any spellsPrivate := by
  rw [spellsPrivate, spelled]
  exact isPrivate_ofParts path.segments

/-- A path and keys below it, once they are cut. -/
theorem flatMap_join (path : Path) (trail : List String) :
    (path.join (dotted trail)).segments =
      path.segments.flatMap segmentsOf ++ trail.flatMap segmentsOf := by
  rw [join, ofParts, segmentsOf_dotted, List.flatMap_append]
  exact congrArg _ (flatMap_segmentsOf (plain_ofParts trail))

/-- A location spells the same path as a text and keys below it. -/
theorem ofParts_eq_join_iff {location trail : List String} {text : String} :
    ofParts location = (ofText text).join (dotted trail) ↔
      location.flatMap segmentsOf = segmentsOf text ++ trail.flatMap segmentsOf := by
  have joined : ((ofText text).join (dotted trail)).segments =
      segmentsOf text ++ trail.flatMap segmentsOf := by
    rw [flatMap_join, ofText, flatMap_segmentsOf fun _ => plain_of_mem_segmentsOf]
  rw [← joined]
  constructor
  · exact congrArg segments
  · intro same
    rw [ofParts, same]
    rfl

/-- The keys of a path and keys below it spell the path that its text and those keys do. -/
theorem IsSpelled.ofParts_append {path : Path} (spelled : path.IsSpelled) (trail : List String) :
    ofParts (path.segments ++ trail) = (ofText path.raw).join (dotted trail) := by
  rw [ofParts_eq_join_iff, List.flatMap_append, spelled]

/-- So does the path that they are joined to. -/
theorem IsSpelled.ofParts_join {path : Path} (spelled : path.IsSpelled) (trail : List String) :
    ofParts (path.join (dotted trail)).segments = (ofText path.raw).join (dotted trail) := by
  have plain : ∀ key ∈ (path.join (dotted trail)).segments, IsPlain key := plain_ofParts _
  rw [ofParts_eq_join_iff, flatMap_segmentsOf plain, flatMap_join, spelled]

end Path

namespace Resolver

variable (resolver : Resolver)

theorem isSpelled_resolve (text : String) : (resolver.resolve text).IsSpelled := by
  have as_given : (Path.ofText text).IsSpelled :=
    (Path.flatMap_segmentsOf fun _ => Path.plain_of_mem_segmentsOf).symm
  rw [resolve, resolvePath]
  split
  · split
    · exact Path.segmentsOf_dotted _
    · exact as_given
  · exact as_given

/-- Resolving a path does not make it less private: the alias it takes away is public. -/
theorem any_spellsPrivate_resolve {text : String} (secret : Path.spellsPrivate text = true) :
    (resolver.resolve text).segments.any Path.spellsPrivate = true := by
  rw [← Path.any_segmentsOf] at secret
  rw [resolve, resolvePath]
  split
  · rename_i first second rest segments
    split
    · rename_i is_alias
      rw [show Path.segmentsOf text = _ from segments, is_alias.2, List.any_cons, List.any_cons,
        show Path.spellsPrivate selfKey = false by decide, Bool.false_or, Bool.or_eq_true] at secret
      rw [List.any_cons, List.any_cons, Bool.or_eq_true, Bool.or_eq_true]
      exact secret.imp id .inr
    · exact secret
  · exact secret

end Resolver

end VesselHub
