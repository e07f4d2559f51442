import ExactLisp.Layout.Passes
import ExactLisp.Layout.Writer

/-!
# What the standard passes leave alone

The skeleton of a tree is the tree without its white space; only what stands in
strings and comments is kept whole. The passes of the standard layout add, remove
and replace white space and do nothing else: **they keep the skeleton**
(`Pass.skeleton_runAll_standard`).

Most edits keep the content of the children they are given, white space apart,
node by node. Only a let form also changes a node, its bindings, and those keep
their skeleton in turn.
-/

namespace ExactLisp.Layout

namespace Token

mutual

/-- A node without the white space in it, strings and comments apart. -/
def skeleton : Token → Token
  | .atom text lineBreak => .atom text lineBreak
  | .aggregate kind children => .aggregate kind (skeletons kind.isVerbatim children)

/-- The skeletons of some nodes; those that are white space are kept only if `verbatim`. -/
def skeletons (verbatim : Bool) : List Token → List Token
  | [] => []
  | t :: rest =>
    if t.isWhitespace && !verbatim then skeletons verbatim rest
    else t.skeleton :: skeletons verbatim rest

end

@[simp] theorem isWhitespace_skeleton (t : Token) : t.skeleton.isWhitespace = t.isWhitespace := by
  cases t with
  | atom => rw [skeleton]
  | aggregate =>
    rw [skeleton]
    rfl

theorem isWhitespace_congr {a b : Token} (h : a.skeleton = b.skeleton) :
    a.isWhitespace = b.isWhitespace := by
  rw [← isWhitespace_skeleton, h, isWhitespace_skeleton]

@[simp] theorem isWhitespace_newline : newline.isWhitespace = true := rfl

theorem isWhitespace_atom_space (lineBreak : Bool) :
    (Token.atom [' '] lineBreak).isWhitespace = true := by
  cases lineBreak <;> rfl

@[simp] theorem isWhitespace_space : space.isWhitespace = true := rfl

theorem isWhitespace_of_isSpace {t : Token} (h : t.isSpace = true) : t.isWhitespace = true := by
  rw [isSpace, Bool.and_eq_true] at h
  exact h.1

end Token

open Token

/-! ## The content of some children -/

/-- The children that are not white space. -/
def content (children : List Token) : List Token := children.filter fun t => !t.isWhitespace

@[simp] theorem content_nil : content [] = [] := rfl

@[simp] theorem content_append (a b : List Token) : content (a ++ b) = content a ++ content b :=
  List.filter_append ..

theorem content_cons_of_whitespace {t : Token} (h : t.isWhitespace = true) (rest : List Token) :
    content (t :: rest) = content rest := by
  simp [content, h]

theorem content_cons_of_not_whitespace {t : Token} (h : t.isWhitespace = false)
    (rest : List Token) : content (t :: rest) = t :: content rest := by
  simp [content, h]

theorem content_eq_nil {children : List Token} (h : ∀ t ∈ children, t.isWhitespace = true) :
    content children = [] := by
  simpa [content, List.filter_eq_nil_iff] using h

theorem content_content (children : List Token) :
    content (content children) = content children := by
  simp [content]

theorem skeletons_content (children : List Token) :
    skeletons false children = (content children).map skeleton := by
  induction children with
  | nil => rfl
  | cons t rest ih =>
    cases h : t.isWhitespace
    · rw [content_cons_of_not_whitespace h]
      simp [skeletons, h, ih]
    · rw [content_cons_of_whitespace h]
      simp [skeletons, h, ih]

/-! ## Breaking lines -/

theorem trimEnd_append_trailingWhitespace (children : List Token) :
    trimEnd children ++ trailingWhitespace children = children := by
  rw [trimEnd, trailingWhitespace, ← List.reverse_append, List.takeWhile_append_dropWhile,
    List.reverse_reverse]

theorem content_trailingWhitespace (children : List Token) :
    content (trailingWhitespace children) = [] :=
  content_eq_nil fun t h => List.all_eq_true.mp List.all_takeWhile t (List.mem_reverse.mp h)

theorem content_trimEnd (children : List Token) :
    content (trimEnd children) = content children := by
  have h := congrArg content (trimEnd_append_trailingWhitespace children)
  rwa [content_append, content_trailingWhitespace, List.append_nil] at h

theorem content_replicate_space (n : Nat) : content (List.replicate n .space) = [] :=
  content_eq_nil fun _ h => by rw [List.eq_of_mem_replicate h, isWhitespace_space]

theorem content_breakBefore (children : List Token) (place extra : Nat) :
    content (breakBefore children place extra) = content children := by
  rw [breakBefore, content_append, content_trimEnd,
    content_cons_of_whitespace isWhitespace_newline, content_append, content_replicate_space,
    List.nil_append, ← content_append, List.take_append_drop]

theorem content_breakBeforeEach (children : List Token) (places : List Nat) :
    content (breakBeforeEach children places) = content children := by
  induction places with
  | nil => rfl
  | cons place rest ih =>
    rw [breakBeforeEach, List.foldr_cons, content_breakBefore]
    exact ih

/-! ## Spacing -/

theorem content_collapseSpaces (afterSpace : Bool) (children : List Token) :
    content (collapseSpaces afterSpace children) = content children := by
  induction children generalizing afterSpace with
  | nil => rfl
  | cons t rest ih =>
    rw [collapseSpaces]
    split
    next h =>
      rw [content_cons_of_whitespace (isWhitespace_of_isSpace h)]
      split
      · exact ih true
      · rw [content_cons_of_whitespace isWhitespace_space, ih]
    · simp only [content, List.filter_cons] at ih ⊢
      rw [ih]

theorem content_separateAll (children : List Token) :
    content (separateAll children) = content children := by
  fun_induction separateAll children with
  | case1 a b rest _ ih =>
    simp only [content, List.filter_cons] at ih ⊢
    rw [ih]
  | case2 a b rest _ ih =>
    simp only [content, List.filter_cons, isWhitespace_space] at ih ⊢
    simp [ih]
  | case3 => rfl

theorem innerStart_le_innerEnd (kind : Kind) (children : List Token) :
    innerStart kind children ≤ innerEnd kind children := Nat.le_max_right ..

theorem content_separateElements (kind : Kind) (children : List Token) :
    content (separateElements kind children) = content children := by
  have h := innerStart_le_innerEnd kind children
  rw [separateElements, content_append, content_append, content_separateAll, ← content_append,
    ← content_append]
  congr 1
  rw [show children.take (innerStart kind children) =
      (children.take (innerEnd kind children)).take (innerStart kind children) by
    rw [List.take_take, Nat.min_eq_left h], List.take_append_drop, List.take_append_drop]

theorem content_trimOpening (children : List Token) :
    content (trimOpening children) = content children := by
  fun_cases trimOpening children with
  | case1 opener lineBreak rest =>
    simp [content, List.filter_cons, isWhitespace_atom_space]
  | case2 => rfl
  | case3 => rfl

/-- Spacing leaves strings and comments alone and elsewhere keeps the content. -/
theorem skeletons_spaceOut (kind : Kind) (children : List Token) :
    skeletons kind.isVerbatim (spaceOut kind children) = skeletons kind.isVerbatim children := by
  cases kind with
  | str | comment => rfl
  | root =>
    show skeletons false _ = skeletons false _
    rw [skeletons_content, skeletons_content, spaceOut, content_collapseSpaces]
  | quote =>
    show skeletons false _ = skeletons false _
    rw [skeletons_content, skeletons_content, spaceOut]
    split
    · exact congrArg _ (content_content children)
    · rw [content_trimOpening, content_collapseSpaces]
  | list | array =>
    show skeletons false _ = skeletons false _
    rw [skeletons_content, skeletons_content, spaceOut, content_separateElements,
      content_trimOpening, content_collapseSpaces]

/-! ## Special forms, comments and continuations -/

theorem skeletons_breakBeforeEach (children : List Token) (places : List Nat) :
    skeletons false (breakBeforeEach children places) = skeletons false children := by
  rw [skeletons_content, skeletons_content, content_breakBeforeEach]

theorem skeletons_breakBefore (children : List Token) (place extra : Nat) :
    skeletons false (breakBefore children place extra) = skeletons false children := by
  rw [skeletons_content, skeletons_content, content_breakBefore]

/-- Changing every node and keeping its skeleton keeps all skeletons. -/
theorem skeletons_map {f : Token → Token} (h : ∀ t, (f t).skeleton = t.skeleton)
    (verbatim : Bool) (children : List Token) :
    skeletons verbatim (children.map f) = skeletons verbatim children := by
  induction children with
  | nil => rfl
  | cons t rest ih => simp [skeletons, h, isWhitespace_congr (h t), ih]

/-- Changing one node and keeping its skeleton keeps all skeletons. -/
theorem skeletons_modify {f : Token → Token} (h : ∀ t, (f t).skeleton = t.skeleton)
    (children : List Token) (place : Nat) :
    skeletons false (children.modify place f) = skeletons false children := by
  induction children generalizing place with
  | nil => simp
  | cons t rest ih =>
    cases place with
    | zero => simp [skeletons, h, isWhitespace_congr (h t)]
    | succ place => simp [skeletons, ih]

theorem skeleton_breakBindings (t : Token) : (breakBindings t).skeleton = t.skeleton := by
  fun_cases breakBindings t with
  | case1 children =>
    rw [skeleton, skeleton]
    exact congrArg _ (skeletons_breakBeforeEach ..)
  | case2 => rfl

theorem skeletons_breakLet (children : List Token) :
    skeletons false (breakLet children) = skeletons false children := by
  fun_cases breakLet children with
  | case1 => rw [skeletons_modify skeleton_breakBindings, skeletons_breakBeforeEach]
  | case2 => rfl

theorem skeletons_breakConditional (children : List Token) :
    skeletons false (breakConditional children) = skeletons false children := by
  fun_cases breakConditional children with
  | case1 => rw [skeletons_breakBefore, skeletons_breakBeforeEach]
  | case2 => rw [skeletons_breakBefore]
  | case3 => rfl
  | case4 => rfl

theorem skeletons_whenHeaded {heads : List String} {edit : List Token → List Token}
    (h : ∀ children, skeletons false (edit children) = skeletons false children) (kind : Kind)
    (children : List Token) :
    skeletons kind.isVerbatim (whenHeaded heads edit kind children) =
      skeletons kind.isVerbatim children := by
  rw [whenHeaded]
  split
  next hk => rw [hk.1]; exact h children
  · rfl

theorem skeletons_breakComments (kind : Kind) (children : List Token) :
    skeletons kind.isVerbatim (breakComments kind children) =
      skeletons kind.isVerbatim children := by
  cases kind with
  | root | list | array => exact skeletons_breakBeforeEach ..
  | str | comment | quote => rfl

theorem skeletons_breakContinuations (kind : Kind) (children : List Token) :
    skeletons kind.isVerbatim (breakContinuations kind children) =
      skeletons kind.isVerbatim children := by
  cases kind with
  | list => exact skeletons_breakBeforeEach ..
  | root | array | str | comment | quote => rfl

/-! ## Passes over a tree -/

namespace Pass

/-- A pass that replaces every node by one with the same skeleton. -/
def KeepsSkeleton (pass : Pass) : Prop :=
  ∀ parent depth t, (pass parent depth t).skeleton = t.skeleton

theorem keepsSkeleton_ofChildren {edit : Kind → List Token → List Token}
    (h : ∀ kind children,
      skeletons kind.isVerbatim (edit kind children) = skeletons kind.isVerbatim children) :
    KeepsSkeleton (ofChildren edit) := by
  intro parent depth t
  fun_cases ofChildren edit parent depth t with
  | case1 => rw [skeleton, skeleton, h]
  | case2 => rfl

theorem skeleton_walkWithin {pass : Pass} (h : pass.KeepsSkeleton) (levels : Nat)
    (parent : Option Kind) (depth : Nat) (t : Token) :
    (walkWithin pass levels parent depth t).skeleton = t.skeleton := by
  induction levels generalizing parent depth t with
  | zero => rfl
  | succ levels ih =>
    have ht := h parent depth t
    rw [walkWithin]
    split
    next kind children he =>
      rw [← ht, he, skeleton, skeleton, skeletons_map (ih (some kind) (depth + 1))]
    · exact ht

/-- Running passes that keep the skeleton of every node keeps the skeleton of the tree. -/
theorem skeleton_runAll {passes : List Pass} (h : ∀ pass ∈ passes, pass.KeepsSkeleton)
    (t : Token) : (runAll passes t).skeleton = t.skeleton := by
  induction passes generalizing t with
  | nil => rfl
  | cons pass rest ih =>
    rw [runAll, List.foldl_cons, ← runAll, ih fun p hp => h p (List.mem_cons_of_mem _ hp), walk,
      skeleton_walkWithin (h pass List.mem_cons_self)]

theorem keepsSkeleton_of_mem_standard {pass : Pass} (h : pass ∈ standard) :
    pass.KeepsSkeleton := by
  simp only [standard, List.mem_cons, List.not_mem_nil, or_false] at h
  rcases h with rfl | rfl | rfl | rfl | rfl | rfl | rfl
  · exact keepsSkeleton_ofChildren skeletons_spaceOut
  · exact keepsSkeleton_ofChildren (skeletons_whenHeaded skeletons_breakLet)
  · exact keepsSkeleton_ofChildren (skeletons_whenHeaded skeletons_breakConditional)
  · exact keepsSkeleton_ofChildren
      (skeletons_whenHeaded fun children => skeletons_breakBeforeEach children _)
  · exact keepsSkeleton_ofChildren
      (skeletons_whenHeaded fun children => skeletons_breakBeforeEach children _)
  · exact keepsSkeleton_ofChildren skeletons_breakComments
  · exact keepsSkeleton_ofChildren skeletons_breakContinuations

/-- The standard passes change white space only. -/
theorem skeleton_runAll_standard (t : Token) : (runAll standard t).skeleton = t.skeleton :=
  skeleton_runAll (fun _ => keepsSkeleton_of_mem_standard) t

end Pass

end ExactLisp.Layout
