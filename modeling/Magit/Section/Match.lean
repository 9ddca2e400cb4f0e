import Mathlib.Computability.Language

/-!
# Section/Match — conditions on sections

`magit-section-match` compares a section and its ancestors with a vector of classes, in which `*`
stands for any number of sections.  So a vector is a regular language: it matches the sections whose
lineage begins with a word of it (`magitSectionMatch1_iff`).  A vector that ends in `*` asks for a
section without a type behind it, and so it matches none.
-/

namespace Magit.SectionMatch

variable {α : Type}

/-- A section: its slot `type`, and the classes that it is an instance of. -/
structure MatchedSection (α : Type) where
  type : Option α
  isA : α → Bool

/-- `class-p` and `magit--section-type-alist` -/
structure Classes (α : Type) where
  classP : α → Bool
  typeAlist : List (α × α)

/-- A symbol of a condition. -/
inductive Item (α : Type)
  | star
  | symbol (c : α)
  deriving DecidableEq

/-- A condition; a list of conditions is not empty, as `nil` is none. -/
inductive Condition (α : Type)
  | symbol (i : Item α)
  | vector (items : List (Item α))
  | any (first : Condition α) (rest : List (Condition α))

mutual

/-- The vectors of a condition. -/
def Condition.vectors : Condition α → List (List (Item α))
  | .symbol i => [[i]]
  | .vector items => [items]
  | .any first rest => first.vectors ++ vectorsOf rest

/-- The vectors of several conditions. -/
def vectorsOf : List (Condition α) → List (List (Item α))
  | [] => []
  | condition :: rest => condition.vectors ++ vectorsOf rest

end

section

variable [DecidableEq α] (classes : Classes α)

/-- Whether a section matches a symbol. -/
def testSymbol (c : α) (s : MatchedSection α) : Bool :=
  if classes.classP c then s.isA c
  else
    match classes.typeAlist.lookup c with
    | some type => s.isA type
    | none => s.type = some c

/-- `magit-section-match-2`, of a section and its ancestors.  The `car` of an empty list is `nil`,
and the type of a section may be `nil` too. -/
def magitSectionMatch2 : List (Item α) → MatchedSection α → List (MatchedSection α) → Bool
  | [], s, _ => s.type.isNone
  | .star :: items, s, ancestors =>
    magitSectionMatch2 items s ancestors ||
      match ancestors with
      | [] => false
      | parent :: more => magitSectionMatch2 (.star :: items) parent more
  | .symbol c :: items, s, ancestors =>
    testSymbol classes c s &&
      (items.isEmpty ||
        match ancestors with
        | [] => false
        | parent :: more => magitSectionMatch2 items parent more)
  termination_by items _ ancestors => items.length + ancestors.length

mutual

/-- `magit-section-match-1` -/
def magitSectionMatch1 (s : MatchedSection α) (ancestors : List (MatchedSection α)) :
    Condition α → Bool
  | .symbol i => magitSectionMatch2 classes [i] s ancestors
  | .vector items => magitSectionMatch2 classes items s ancestors
  | .any first rest => magitSectionMatch1 s ancestors first || matchesAny s ancestors rest

/-- One of the conditions matches. -/
def matchesAny (s : MatchedSection α) (ancestors : List (MatchedSection α)) :
    List (Condition α) → Bool
  | [] => false
  | condition :: rest => magitSectionMatch1 s ancestors condition || matchesAny s ancestors rest

end

end

/-! ## Words that begin in a certain way -/

section

variable {σ : Type*} {L : Language σ} {test : σ → Prop} {s : σ} {word : List σ}

/-- The words of one letter that passes a test. -/
def single (test : σ → Prop) : Language σ := {word | ∃ s, test s ∧ word = [s]}

/-- Behind anything there is a word of the language. -/
theorem mem_top_mul : word ∈ ⊤ * L ↔ ∃ behind ∈ L, behind <:+ word := by
  rw [Language.mem_mul]
  constructor
  · rintro ⟨front, -, behind, hbehind, heq⟩
    exact ⟨behind, hbehind, front, heq⟩
  · rintro ⟨behind, hbehind, front, heq⟩
    exact ⟨front, trivial, behind, hbehind, heq⟩

theorem cons_mem_top_mul : s :: word ∈ ⊤ * L ↔ s :: word ∈ L ∨ word ∈ ⊤ * L := by
  rw [mem_top_mul, mem_top_mul]
  simp only [List.suffix_cons_iff, and_or_left, exists_or, exists_eq_right]

theorem nil_mem_top_mul : [] ∈ ⊤ * L ↔ [] ∈ L := by
  rw [mem_top_mul]
  simp only [List.suffix_nil, exists_eq_right]

/-- The first section is tested, and the others are a word of the language. -/
theorem cons_mem_single_mul : s :: word ∈ single test * L ↔ test s ∧ word ∈ L := by
  rw [Language.mem_mul]
  constructor
  · rintro ⟨front, ⟨t, htest, rfl⟩, behind, hbehind, heq⟩
    obtain ⟨rfl, rfl⟩ := List.cons.inj heq
    exact ⟨htest, hbehind⟩
  · exact fun h => ⟨[s], ⟨s, h.1, rfl⟩, word, h.2, rfl⟩

theorem nil_notMem_single_mul : [] ∉ single test * L := by
  rw [Language.mem_mul]
  rintro ⟨front, ⟨t, -, rfl⟩, behind, -, heq⟩
  cases heq

end

/-! ## The language of a vector -/

/-- A section without a type. -/
def untyped : Language (MatchedSection α) := single fun s => s.type = none

/-- What a vector has to be followed by: nothing, if it ends in a symbol. -/
def ending (items : List (Item α)) : Language (MatchedSection α) :=
  match items.getLast? with
  | some (.symbol _) => 1
  | some .star => untyped
  | none => untyped

variable [DecidableEq α] (classes : Classes α)

/-- The lineages that an item stands for. -/
def itemLanguage : Item α → Language (MatchedSection α)
  | .star => ⊤
  | .symbol c => single fun s => testSymbol classes c s = true

/-- The lineages that a vector matches. -/
def vectorLanguage (items : List (Item α)) : Language (MatchedSection α) :=
  (items.map (itemLanguage classes)).prod * ending items * ⊤

variable {classes} {items : List (Item α)} {s : MatchedSection α}
  {ancestors : List (MatchedSection α)}

theorem vectorLanguage_nil : vectorLanguage classes ([] : List (Item α)) = untyped * ⊤ := by
  rw [vectorLanguage, List.map_nil, List.prod_nil, one_mul]
  rfl

omit [DecidableEq α] in
theorem ending_cons {i j : Item α} : ending (i :: j :: items) = ending (j :: items) := by
  rw [ending, ending, List.getLast?_cons_cons]

/-- A star stands for any number of sections. -/
theorem vectorLanguage_star :
    vectorLanguage classes (.star :: items) = ⊤ * vectorLanguage classes items := by
  have hending : ending (.star :: items) = ending items := by
    rcases items with _ | ⟨i, items⟩
    · rfl
    · exact ending_cons
  rw [vectorLanguage, vectorLanguage, hending, List.map_cons, List.prod_cons]
  simp only [mul_assoc]
  rfl

/-- A symbol stands for one section, and what is above it is free at the end. -/
theorem vectorLanguage_symbol (c : α) :
    vectorLanguage classes (.symbol c :: items)
      = single (fun s => testSymbol classes c s = true)
        * if items = [] then ⊤ else vectorLanguage classes items := by
  rcases items with _ | ⟨i, items⟩
  · rw [if_pos rfl, vectorLanguage, List.map_singleton, List.prod_singleton]
    exact congrArg (· * ⊤) (mul_one _)
  · rw [if_neg (List.cons_ne_nil i items), vectorLanguage, vectorLanguage, ending_cons,
      List.map_cons, List.prod_cons]
    simp only [mul_assoc]
    rfl

/-- No vector matches nothing. -/
theorem nil_notMem_vectorLanguage (items : List (Item α)) : [] ∉ vectorLanguage classes items := by
  induction items with
  | nil =>
    rw [vectorLanguage_nil]
    exact nil_notMem_single_mul
  | cons i items ih =>
    cases i with
    | star => rwa [vectorLanguage_star, nil_mem_top_mul]
    | symbol c =>
      rw [vectorLanguage_symbol]
      exact nil_notMem_single_mul

/-- **A vector matches the lineages that begin with a word of its language.** -/
theorem magitSectionMatch2_iff (items : List (Item α)) (s : MatchedSection α)
    (ancestors : List (MatchedSection α)) :
    magitSectionMatch2 classes items s ancestors = true
      ↔ s :: ancestors ∈ vectorLanguage classes items := by
  induction items generalizing s ancestors with
  | nil =>
    rw [vectorLanguage_nil, untyped, cons_mem_single_mul, magitSectionMatch2,
      Option.isNone_iff_eq_none]
    exact (and_iff_left trivial).symm
  | cons i items ih =>
    cases i with
    | star =>
      rw [vectorLanguage_star]
      induction ancestors generalizing s with
      | nil =>
        rw [magitSectionMatch2, cons_mem_top_mul, nil_mem_top_mul, Bool.or_false, ih]
        exact (or_iff_left (nil_notMem_vectorLanguage items)).symm
      | cons parent more ihMore =>
        rw [magitSectionMatch2, cons_mem_top_mul, Bool.or_eq_true, ih, ihMore]
    | symbol c =>
      rw [vectorLanguage_symbol, cons_mem_single_mul, magitSectionMatch2.eq_def]
      dsimp only
      rw [Bool.and_eq_true]
      refine and_congr_right fun _ => ?_
      rcases items with _ | ⟨i, items⟩
      · exact iff_of_true rfl trivial
      · rw [if_neg (List.cons_ne_nil i items)]
        rcases ancestors with _ | ⟨parent, more⟩
        · exact iff_of_false Bool.false_ne_true (nil_notMem_vectorLanguage _)
        · exact ih parent more

mutual

/-- A condition is one of its vectors. -/
theorem magitSectionMatch1_eq (s : MatchedSection α) (ancestors : List (MatchedSection α)) :
    ∀ condition : Condition α, magitSectionMatch1 classes s ancestors condition
      = condition.vectors.any fun items => magitSectionMatch2 classes items s ancestors
  | .symbol i => by
    rw [magitSectionMatch1, Condition.vectors, List.any_cons, List.any_nil, Bool.or_false]
  | .vector items => by
    rw [magitSectionMatch1, Condition.vectors, List.any_cons, List.any_nil, Bool.or_false]
  | .any first rest => by
    rw [magitSectionMatch1, Condition.vectors, List.any_append,
      magitSectionMatch1_eq s ancestors first, matchesAny_eq s ancestors rest]

/-- Several conditions are all of their vectors. -/
theorem matchesAny_eq (s : MatchedSection α) (ancestors : List (MatchedSection α)) :
    ∀ conditions : List (Condition α), matchesAny classes s ancestors conditions
      = (vectorsOf conditions).any fun items => magitSectionMatch2 classes items s ancestors
  | [] => by rw [matchesAny, vectorsOf, List.any_nil]
  | condition :: rest => by
    rw [matchesAny, vectorsOf, List.any_append, magitSectionMatch1_eq s ancestors condition,
      matchesAny_eq s ancestors rest]

end

/-- **A vector is matched by the words of its language.** -/
theorem magitSectionMatch1_vector (items : List (Item α)) (s : MatchedSection α)
    (ancestors : List (MatchedSection α)) :
    magitSectionMatch1 classes s ancestors (.vector items) = true
      ↔ s :: ancestors ∈ vectorLanguage classes items := by
  rw [magitSectionMatch1, magitSectionMatch2_iff]

/-- What a vector that ends in `*` matches has a section without a type. -/
theorem exists_untyped (hlast : ∀ c, items.getLast? ≠ some (.symbol c))
    {lineage : List (MatchedSection α)} (h : lineage ∈ vectorLanguage classes items) :
    ∃ t ∈ lineage, t.type = none := by
  have hending : ending items = untyped := by
    rw [ending]
    split
    · exact absurd ‹_› (hlast _)
    · rfl
    · rfl
  rw [vectorLanguage, hending] at h
  obtain ⟨front, hfront, behind, -, rfl⟩ := Language.mem_mul.mp h
  obtain ⟨before, -, last, ⟨t, htype, rfl⟩, rfl⟩ := Language.mem_mul.mp hfront
  exact ⟨t, List.mem_append_left _ (List.mem_append_right _ List.mem_cons_self), htype⟩

/-- **A section matches a condition if and only if its lineage begins with a word of the language of
one of its vectors.**  With `*` in front a vector also matches all sections below the ones that it
matches without; with `*` at its end, or empty, it matches none among sections that have types. -/
theorem magitSectionMatch1_iff (s : MatchedSection α) (ancestors : List (MatchedSection α)) :
    (∀ condition, magitSectionMatch1 classes s ancestors condition = true
        ↔ ∃ items ∈ condition.vectors, s :: ancestors ∈ vectorLanguage classes items)
      ∧ (∀ items, magitSectionMatch1 classes s ancestors (.vector (.star :: items)) = true
        ↔ ∃ t more, t :: more <:+ s :: ancestors
          ∧ magitSectionMatch1 classes t more (.vector items) = true)
      ∧ ∀ items, (∀ c, items.getLast? ≠ some (.symbol c)) → (∀ t ∈ s :: ancestors, t.type ≠ none) →
        magitSectionMatch1 classes s ancestors (.vector items) = false := by
  refine ⟨fun condition => ?_, fun items => ?_, fun items hlast htypes => ?_⟩
  · rw [magitSectionMatch1_eq, List.any_eq_true]
    simp only [magitSectionMatch2_iff]
  · rw [magitSectionMatch1_vector, vectorLanguage_star, mem_top_mul]
    constructor
    · rintro ⟨behind, hbehind, hsuffix⟩
      rcases behind with _ | ⟨t, more⟩
      · exact absurd hbehind (nil_notMem_vectorLanguage items)
      · exact ⟨t, more, hsuffix, (magitSectionMatch1_vector items t more).mpr hbehind⟩
    · rintro ⟨t, more, hsuffix, hmatch⟩
      exact ⟨t :: more, (magitSectionMatch1_vector items t more).mp hmatch, hsuffix⟩
  · refine eq_false_of_ne_true fun hmatch => ?_
    obtain ⟨t, ht, htype⟩ :=
      exists_untyped hlast ((magitSectionMatch1_vector items s ancestors).mp hmatch)
    exact htypes t ht htype

/-! ## A hunk -/

/-- Types of sections. -/
inductive Name
  | hunk
  | file
  | status
  deriving DecidableEq

/-- A section with a type and of no class. -/
def typed (name : Name) : MatchedSection Name := ⟨some name, fun _ => false⟩

/-- There are no classes. -/
def noClasses : Classes Name := ⟨fun _ => false, []⟩

/-- `[* file]` matches a hunk of a file, and `[hunk *]` does not. -/
theorem magitSectionMatch1_iff_hunk :
    magitSectionMatch1 noClasses (typed .hunk) [typed .file, typed .status]
        (.vector [.star, .symbol .file]) = true
      ∧ magitSectionMatch1 noClasses (typed .hunk) [typed .file, typed .status]
        (.vector [.symbol .hunk, .star]) = false := by
  have h := @magitSectionMatch1_iff _ _ noClasses (typed .hunk) [typed .file, typed .status]
  have hfile : magitSectionMatch1 noClasses (typed .file) [typed .status]
      (.vector [.symbol .file]) = true := by
    rw [magitSectionMatch1, magitSectionMatch2.eq_def]
    rfl
  refine ⟨(h.2.1 _).mpr ⟨_, _, List.suffix_cons _ _, hfile⟩, h.2.2 _ (fun c hlast => ?_) ?_⟩
  · cases hlast
  · simp only [List.forall_mem_cons, typed, ne_eq, reduceCtorEq, not_false_eq_true, true_and]
    exact fun _ hmem => absurd hmem List.not_mem_nil

end Magit.SectionMatch
