/-
What the assembly takes.  Whatever it is told to assemble, it takes a token out of a slot that
still holds one and never puts one back: no token gets into the tree twice, the slots hold less
with every call for another tree, and the assembly ends, also where operations form a circle.
What comes out is the tree that the operations describe.  Of what has been resolved the assembly
takes all tokens.
-/
import Formula.Proofs.Precedence.Resolving
import Formula.Proofs.Refusal
import Mathlib.Data.List.ReduceOption

namespace Formula

namespace Slots

/-- Every slot that is still full holds the token of its index. -/
def InPlace (slots : Slots) (tokens : List Placed) : Prop :=
  ∀ (index : Nat) (placed : Placed), slots[index]? = some (some placed) →
    tokens[index]? = some placed

theorem inPlace_ofTokens (tokens : List Placed) : (ofTokens tokens).InPlace tokens := by
  intro index placed h
  rw [getElem?_ofTokens] at h
  obtain ⟨found, hfound, heq⟩ := Option.map_eq_some_iff.1 h
  rwa [Option.some.inj heq] at hfound

theorem InPlace.take {slots rest : Slots} {tokens : List Placed} {index : Nat} {placed : Placed}
    (h : slots.InPlace tokens) (htake : slots.take? index = some (placed, rest)) :
    tokens[index]? = some placed := h index placed (take?_eq_some_iff.1 htake).1

/-- From some slots to others, the ones at the given indices have been emptied, and each of them
was full. -/
structure Emptied (slots rest : Slots) (taken : List Nat) : Prop where
  nodup : taken.Nodup
  full : ∀ index ∈ taken, ∃ placed, slots[index]? = some (some placed)
  empty : ∀ index ∈ taken, rest[index]? = some none
  kept : ∀ index ∉ taken, rest[index]? = slots[index]?

namespace Emptied

variable {slots middle rest : Slots} {first second : List Nat}

theorem take {index : Nat} {placed : Placed} (h : slots.take? index = some (placed, rest)) :
    slots.Emptied rest [index] := by
  obtain ⟨hfull, rfl⟩ := take?_eq_some_iff.1 h
  have hlt : index < slots.size := (Array.getElem?_eq_some_iff.1 hfull).1
  constructor
  · exact List.nodup_singleton index
  · intro other hother
    rw [List.mem_singleton.1 hother]
    exact ⟨placed, hfull⟩
  · intro other hother
    rw [List.mem_singleton.1 hother]
    exact Array.getElem?_setIfInBounds_self_of_lt hlt
  · intro other hother
    exact slots.getElem?_take_ne fun heq => hother (List.mem_singleton.2 heq)

/-- What has been emptied is not taken again. -/
theorem append (hfirst : slots.Emptied middle first) (hsecond : middle.Emptied rest second) :
    slots.Emptied rest (first ++ second) := by
  have hdisjoint : ∀ index ∈ second, index ∉ first := by
    intro index hindex htaken
    obtain ⟨placed, hfull⟩ := hsecond.full index hindex
    rw [hfirst.empty index htaken] at hfull
    cases hfull
  constructor
  · exact List.nodup_append.2 ⟨hfirst.nodup, hsecond.nodup, fun index htaken other hother heq =>
      hdisjoint other hother (heq ▸ htaken)⟩
  · intro index hindex
    rcases List.mem_append.1 hindex with htaken | hindex
    · exact hfirst.full index htaken
    · rw [← hfirst.kept index (hdisjoint index hindex)]
      exact hsecond.full index hindex
  · intro index hindex
    by_cases hlater : index ∈ second
    · exact hsecond.empty index hlater
    · rw [hsecond.kept index hlater]
      exact hfirst.empty index ((List.mem_append.1 hindex).resolve_right hlater)
  · intro index hindex
    rw [List.mem_append, not_or] at hindex
    rw [hsecond.kept index hindex.2, hfirst.kept index hindex.1]

theorem perm {taken other : List Nat} (h : slots.Emptied rest taken) (hperm : taken.Perm other) :
    slots.Emptied rest other where
  nodup := hperm.nodup_iff.1 h.nodup
  full index hindex := h.full index (hperm.mem_iff.2 hindex)
  empty index hindex := h.empty index (hperm.mem_iff.2 hindex)
  kept index hindex := h.kept index fun htaken => hindex (hperm.mem_iff.1 htaken)

theorem inPlace {tokens : List Placed} {taken : List Nat} (h : slots.Emptied rest taken)
    (hslots : slots.InPlace tokens) : rest.InPlace tokens := by
  intro index placed hplaced
  by_cases htaken : index ∈ taken
  · rw [h.empty index htaken] at hplaced
    cases hplaced
  · rw [h.kept index htaken] at hplaced
    exact hslots index placed hplaced

end Emptied

/-- The tokens that have not been taken yet. -/
def left (slots : Slots) : List Placed := slots.toList.reduceOption

theorem left_ofTokens (tokens : List Placed) : (ofTokens tokens).left = tokens := by
  simp [left, ofTokens, List.reduceOption]

theorem extent_set_none {slots : List (Option Placed)} {index : Nat} {placed : Placed}
    (h : slots[index]? = some (some placed)) :
    extent slots.reduceOption =
      placed.token.extent + extent (slots.set index none).reduceOption := by
  induction slots generalizing index with
  | nil => cases h
  | cons slot slots ih =>
      cases index with
      | zero =>
          obtain rfl := Option.some.inj h
          rfl
      | succ index =>
          have hrest := ih h
          cases slot with
          | none => exact hrest
          | some other =>
              rw [List.set_cons_succ, List.reduceOption_cons_of_some,
                List.reduceOption_cons_of_some, extent_cons, extent_cons, hrest]
              omega

/-- What is taken out is not left. -/
theorem extent_take {slots rest : Slots} {index : Nat} {placed : Placed}
    (h : slots.take? index = some (placed, rest)) :
    extent slots.left = placed.token.extent + extent rest.left := by
  obtain ⟨hfull, rfl⟩ := take?_eq_some_iff.1 h
  rw [left, left, Array.toList_setIfInBounds]
  apply extent_set_none
  rwa [Array.getElem?_toList]

theorem extent_take_lt {slots rest : Slots} {index : Nat} {placed : Placed}
    (h : slots.take? index = some (placed, rest)) : extent rest.left < extent slots.left := by
  rw [extent_take h]
  exact Nat.lt_add_of_pos_left placed.token.extent_pos

end Slots

namespace Resolution

variable {resolution : Resolution} {tokens : List Placed}

/-- The tokens that are taken form the tree: its top is where the assembly began, every node is
what its token says and has the operands that its operation says, and no token is in it twice. -/
theorem Assembles.exists_located {room index : Nat} {slots rest : Slots} {tree : Expr}
    (h : resolution.Assembles room index slots tree rest) (hslots : slots.InPlace tokens) :
    ∃ located : Located, located.expr = tree ∧ located.root = index ∧ located.Matches tokens ∧
      located.Follows resolution ∧ slots.Emptied rest located.inorder := by
  induction h with
  | @leaf room index slots rest placed tree htake htree hroom =>
      have htoken := hslots.take htake
      exact ⟨.leaf index tree, rfl, rfl, ⟨placed, htoken, htree⟩, trivial, .take htake⟩
  | @unary room index operand slots taken rest placed op tree htake htree hnode hoperand ih =>
      have htoken := hslots.take htake
      have hemptied := Slots.Emptied.take htake
      obtain ⟨located, rfl, rfl, hmatches, hfollows, hbelow⟩ := ih (hemptied.inPlace hslots)
      obtain ⟨hoperation, hop⟩ := node?_eq_unary_iff.1 hnode
      exact ⟨.sign index op located, rfl, rfl, ⟨⟨placed, htoken, hop⟩, hmatches⟩,
        ⟨hoperation, hfollows⟩, hemptied.append hbelow⟩
  | @binary room index left right slots taken middle rest placed op leftTree rightTree htake htree
      hnode hleft hright ihleft ihright =>
      have htoken := hslots.take htake
      have hemptied := Slots.Emptied.take htake
      obtain ⟨leftLocated, rfl, rfl, hleftMatches, hleftFollows, hleftTaken⟩ :=
        ihleft (hemptied.inPlace hslots)
      have hbefore := hemptied.append hleftTaken
      obtain ⟨rightLocated, rfl, rfl, hrightMatches, hrightFollows, hrightTaken⟩ :=
        ihright (hbefore.inPlace hslots)
      obtain ⟨hoperation, hop⟩ := node?_eq_binary_iff.1 hnode
      refine ⟨.operator index op leftLocated rightLocated, rfl, rfl,
        ⟨⟨placed, htoken, hop⟩, hleftMatches, hrightMatches⟩,
        ⟨hoperation, hleftFollows, hrightFollows⟩, ?_⟩
      apply (hbefore.append hrightTaken).perm
      simp only [Located.inorder, List.cons_append]
      exact List.perm_middle.symm

/-- A tree has no more levels than the tokens that it takes. -/
theorem Assembles.levels_add_extent_le {room index : Nat} {slots rest : Slots} {tree : Expr}
    (h : resolution.Assembles room index slots tree rest) :
    tree.levels + extent rest.left ≤ extent slots.left := by
  induction h with
  | leaf htake htree hroom =>
      rw [Slots.extent_take htake, Token.extent_of_tree? htree]
  | @unary room index operand slots taken rest placed op tree htake htree hnode hoperand ih =>
      have htaken := Slots.extent_take htake
      have hpos := placed.token.extent_pos
      rw [Expr.levels]
      omega
  | @binary room index left right slots taken middle rest placed op leftTree rightTree htake htree
      hnode hleft hright ihleft ihright =>
      have htaken := Slots.extent_take htake
      have hpos := placed.token.extent_pos
      rw [Expr.levels]
      omega

/-- Where there is room for all tokens that are left, no limit is hit, whatever the operations
are. -/
theorem assembleAt_blames_noLimit (room level index : Nat) {slots : Slots}
    (hroom : extent slots.left ≤ room) :
    Blames NoLimit (resolution.assembleAt room level index slots) := by
  have hkeeps : resolution.Keeps fun room slots => extent slots.left ≤ room := by
    constructor
    · intro room index slots taken placed hroom htake
      exact Nat.le_of_lt_succ (Nat.lt_of_lt_of_le (Slots.extent_take_lt htake) hroom)
    · intro room index slots rest tree hroom hassembles
      have hspent := hassembles.levels_add_extent_le
      omega
  refine hkeeps.assembleAt_blames (fun _ => id) ?_ room level index hroom
  intro room index slots taken placed hroom htake hlow
  have htaken := Slots.extent_take htake
  omega

/-- The assembly at an index, on some slots, calls for the assembly at another one, on the slots
that are left then. -/
inductive Calls (resolution : Resolution) : Nat × Slots → Nat × Slots → Prop
  | unary {index operand : Nat} {slots taken : Slots} {placed : Placed} {op : UnaryOperator}
      (htake : slots.take? index = some (placed, taken))
      (hnode : resolution.node? index placed.token = some (.unary op operand)) :
      Calls resolution (index, slots) (operand, taken)
  | left {index left right : Nat} {slots taken : Slots} {placed : Placed} {op : BinaryOperator}
      (htake : slots.take? index = some (placed, taken))
      (hnode : resolution.node? index placed.token = some (.binary op left right)) :
      Calls resolution (index, slots) (left, taken)
  | right {index left right room : Nat} {slots taken middle : Slots} {placed : Placed}
      {op : BinaryOperator} {tree : Expr} (htake : slots.take? index = some (placed, taken))
      (hnode : resolution.node? index placed.token = some (.binary op left right))
      (hleft : resolution.Assembles room left taken tree middle) :
      Calls resolution (index, slots) (right, middle)

/-- With every call less is left. -/
theorem Calls.extent_lt {caller callee : Nat × Slots} (h : resolution.Calls caller callee) :
    extent callee.2.left < extent caller.2.left := by
  cases h with
  | unary htake hnode => exact Slots.extent_take_lt htake
  | left htake hnode => exact Slots.extent_take_lt htake
  | right htake hnode hleft =>
      have hspent := hleft.levels_add_extent_le
      exact Nat.lt_of_le_of_lt (Nat.le_of_add_left_le hspent) (Slots.extent_take_lt htake)

/-- No assembly calls for others for ever. -/
theorem wellFounded_calls (resolution : Resolution) :
    WellFounded fun callee caller => resolution.Calls caller callee :=
  Subrelation.wf Calls.extent_lt (measure fun call : Nat × Slots => extent call.2.left).wf

/-- With room for all tokens no limit is hit, whatever is assembled. -/
theorem assemble_blames_noLimit {maxHeight : Nat} (h : extent tokens ≤ maxHeight) :
    Blames NoLimit (resolution.assemble maxHeight tokens) := by
  rw [← Slots.left_ofTokens tokens] at h
  apply (assembleAt_blames_noLimit _ _ _ h).bind
  intro taken _
  exact .ok _

/-- What is assembled is the tree of the operations below the root, where no token is in it twice
and there is room for it. -/
theorem assemble_eq_ok_iff_located {maxHeight : Nat} {tree : Expr} :
    resolution.assemble maxHeight tokens = .ok tree ↔
      ∃ located : Located, located.expr = tree ∧ located.root = resolution.root ∧
        located.Matches tokens ∧ located.Follows resolution ∧ located.inorder.Nodup ∧
        tree.height ≤ maxHeight := by
  rw [tree.height_eq_levels]
  constructor
  · intro h
    obtain ⟨rest, hassembles⟩ := assemble_eq_ok_iff.1 h
    obtain ⟨located, hexpr, hroot, hmatches, hfollows, hemptied⟩ :=
      hassembles.exists_located (Slots.inPlace_ofTokens tokens)
    exact ⟨located, hexpr, hroot, hmatches, hfollows, hemptied.nodup, hassembles.levels_le⟩
  · rintro ⟨located, rfl, hroot, hmatches, hfollows, hnodup, hlevels⟩
    exact assemble_mono (hfollows.assemble hroot hmatches hnodup) hlevels

end Resolution

/-- The tokens of `2^-x`. -/
def negativePower : List Placed :=
  [⟨.number 2, 0⟩, ⟨.caret, 1⟩, ⟨.minus, 2⟩, ⟨.identifier "x", 3⟩]

/-- A power that is its own right operand is no tree, however much room there is. -/
example : Resolution.assemble ⟨1, Std.TreeMap.empty.insert 1 ⟨true, 6, [0, 1]⟩⟩ 100 negativePower =
    .error ⟨.noRootOperation, 0⟩ := by cbv

end Formula
