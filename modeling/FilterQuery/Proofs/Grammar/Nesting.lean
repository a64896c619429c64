import FilterQuery.Proofs.Grammar.Language

/-!
# Proofs/Grammar/Nesting — how deep the trees of queries are

    levels on a branch   change change group change path step step array path step …
    paid for by          └ chain ┘           └ path ───────┘       └ path ──┘

A **branch** leads from an expression down to a leaf, and its **levels** are what the nesting budget
counts: groups, arrays, objects, paths, the steps of a path and the changes of connector in a chain.
What is inside a group, an array, an object or a path is read with a unit less.  The steps of a path
and the changes of a chain are counted each for itself, against the units that are left there, and
what has been read before them pays nothing for them.  So on a branch they fit beside what is
**around** them (`Fits`), and not beside one another: a branch enters at most `maxDepth` levels and
has at most `maxDepth * (maxDepth + 3) / 2` in all (`fits_branch`), but it can have more than
`maxDepth` in all (`long_branch_of_stepsQuery`).
-/

namespace FilterQuery

namespace Expr

/-- What counts against the nesting budget. -/
inductive Level where
  | group
  | array
  | object
  | path
  /-- A name after a period in a path. -/
  | step
  /-- A chain whose first operand is a chain. -/
  | change
  deriving DecidableEq, Inhabited

/-- Whether what is inside a level is read with a unit less. -/
def Level.isEntered : Level → Bool
  | step | change => false
  | _ => true

/-- The change of connector at a chain, if there is one. -/
def changes : List Expr → List Level
  | chain _ _ :: _ => [.change]
  | _ => []

mutual

/-- The levels on a branch from an expression down to a leaf, the outermost first. -/
inductive Branch : Expr → List Level → Prop
  | literal {v : Value} {lexeme : String} : Branch (.literal v lexeme) []
  | emptyArray : Branch (.array []) [.array]
  | item {items : List Expr} {e : Expr} {levels : List Level} : e ∈ items → Branch e levels →
      Branch (.array items) (.array :: levels)
  | emptyObject : Branch (.object []) [.object]
  | value {fields : List (String × Expr)} {entry : String × Expr} {levels : List Level} :
      entry ∈ fields → Branch entry.2 levels → Branch (.object fields) (.object :: levels)
  | path {e : Expr} {levels : List Level} : Along e levels → Branch e (.path :: levels)
  | left {left right : Expr} {op : Comparator} {levels : List Level} : Branch left levels →
      Branch (.comparison left op right) levels
  | right {left right : Expr} {op : Comparator} {levels : List Level} : Branch right levels →
      Branch (.comparison left op right) levels
  | emptyChain {op : Connector} : Branch (.chain op []) []
  | operand {op : Connector} {operands : List Expr} {e : Expr} {levels : List Level} :
      e ∈ operands → Branch e levels → Branch (.chain op operands) (changes operands ++ levels)
  | group {inner : Expr} {levels : List Level} : Branch inner levels →
      Branch (.group inner) (.group :: levels)

/-- The levels on a branch that goes on along a path: up to its first name, or into an argument. -/
inductive Along : Expr → List Level → Prop
  | root {name : String} : Along (.root name) []
  | step {parent : Expr} {name : String} {levels : List Level} : Along parent levels →
      Along (.step parent name) (.step :: levels)
  | callee {callee : Expr} {args : List Expr} {levels : List Level} : Along callee levels →
      Along (.call callee args) levels
  | argument {callee : Expr} {args : List Expr} {e : Expr} {levels : List Level} : e ∈ args →
      Branch e levels → Along (.call callee args) levels

end

/-! ## Levels that fit -/

/-- Levels that fit into `room`: one that is entered leaves a unit less for what is inside, and the
steps or changes right after it fit beside what is around them. -/
inductive Fits : Nat → List Level → Prop
  | leaf {room : Nat} : Fits room []
  | enter {room n : Nat} {level run : Level} {levels : List Level} : level.isEntered = true →
      run.isEntered = false → n ≤ room → Fits room levels →
      Fits (room + 1) (level :: (List.replicate n run ++ levels))

namespace Fits

theorem of_entered {room : Nat} {level : Level} {levels : List Level}
    (hlevel : level.isEntered = true) (h : Fits room levels) : Fits (room + 1) (level :: levels) :=
  Fits.enter (n := 0) hlevel (rfl : Level.isEntered .step = false) (Nat.zero_le room) h

/-- **No more levels are entered than there is room.** -/
theorem countP_le {room : Nat} {levels : List Level} (h : Fits room levels) :
    levels.countP Level.isEntered ≤ room := by
  induction h with
  | leaf => exact Nat.zero_le _
  | @enter room n level run levels hlevel hrun hn _ ih =>
    have hnone : (List.replicate n run).countP Level.isEntered = 0 := by
      rw [List.countP_replicate, hrun]
      rfl
    rw [List.countP_cons_of_pos hlevel, List.countP_append, hnone]
    omega

/-- **With the steps and the changes there are as many as the room is worth at every depth.** -/
theorem length_le {room : Nat} {levels : List Level} (h : Fits room levels) :
    2 * levels.length ≤ room * (room + 1) := by
  induction h with
  | leaf => exact Nat.zero_le _
  | @enter room n level run levels _ _ hn _ ih =>
    have hroom : (room + 1) * (room + 1 + 1) = room * (room + 1) + 2 * (room + 1) := by
      rw [Nat.mul_comm, ← Nat.add_mul, Nat.add_assoc]
    rw [List.length_cons, List.length_append, List.length_replicate, hroom]
    omega

end Fits

end Expr

/-! ## Branches of derivations -/

namespace Grammar

open FilterQuery.Expr

variable {limit : Nat}

theorem Path.exists_along {depth steps : Nat} {ts : List Token} {e : Expr} {levels : List Level}
    (h : Path limit depth ts steps e) (hbranch : Branch e levels) :
    ∃ along, levels = .path :: along ∧ Along e along := by
  cases h <;>
  · cases hbranch
    exact ⟨_, rfl, ‹_›⟩

mutual

/-- **The levels of a value fit into what is left of the budget.** -/
theorem Operand.fits {depth room : Nat} (hlimit : depth + room = limit) :
    ∀ {ts : List Token} {e : Expr}, Operand limit depth ts e →
      ∀ {levels : List Level}, Branch e levels → Fits room levels
  | _, _, .literal _ _, _, hbranch => by
    cases hbranch with
    | literal => exact .leaf
    | path halong => cases halong
  | _, _, @Operand.array _ _ _ _ parts hdepth hparts _ _, _, hbranch => by
    obtain ⟨room, rfl⟩ : ∃ n, room = n + 1 := ⟨room - 1, by omega⟩
    have hinner : depth + 1 + room = limit := by omega
    have hitems : ∀ e ∈ parts.map Prod.snd, ∀ {levels}, Branch e levels → Fits room levels :=
      List.forall_mem_map.2 fun p hp => (hparts p hp).fits hinner
    generalize parts.map Prod.snd = items at hbranch hitems
    cases hbranch with
    | emptyArray => exact .of_entered rfl .leaf
    | item he hlevels => exact .of_entered rfl (hitems _ he hlevels)
    | path halong => cases halong
  | _, _, .object hdepth _ hvalues _ _ hmerges, _, hbranch => by
    obtain ⟨room, rfl⟩ : ∃ n, room = n + 1 := ⟨room - 1, by omega⟩
    have hinner : depth + 1 + room = limit := by omega
    cases hbranch with
    | emptyObject => exact .of_entered rfl .leaf
    | value hentry hlevels =>
      obtain ⟨w, hw, rfl⟩ := List.mem_map.1 (hmerges.subset hentry)
      exact .of_entered rfl ((hvalues w hw).fits hinner hlevels)
    | path halong => cases halong
  | _, _, .path hdepth hpath hsteps, _, hbranch => by
    obtain ⟨room, rfl⟩ : ∃ n, room = n + 1 := ⟨room - 1, by omega⟩
    have hinner : depth + 1 + room = limit := by omega
    obtain ⟨along, rfl, halong⟩ := hpath.exists_along hbranch
    obtain ⟨n, inner, rfl, hn, hfits⟩ := hpath.fits hinner halong
    exact .enter rfl rfl (by omega) hfits

/-- **The levels along a path are no more steps than it has periods, and then those of a value.** -/
theorem Path.fits {depth room : Nat} (hlimit : depth + room = limit) :
    ∀ {steps : Nat} {ts : List Token} {e : Expr}, Path limit depth ts steps e →
      ∀ {levels : List Level}, Along e levels → ∃ n inner,
        levels = List.replicate n .step ++ inner ∧ n ≤ steps ∧ Fits room inner
  | _, _, _, .name _, _, halong => by
    cases halong
    exact ⟨0, [], rfl, Nat.le_refl _, .leaf⟩
  | _, _, _, .step hpath _ _, _, halong => by
    cases halong with
    | step halong =>
      obtain ⟨n, inner, rfl, hn, hfits⟩ := hpath.fits hlimit halong
      exact ⟨n + 1, inner, rfl, Nat.succ_le_succ hn, hfits⟩
  | _, _, _, @Path.call _ _ _ _ _ _ _ parts hpath _ hparts _ _, _, halong => by
    have hargs : ∀ e ∈ parts.map Prod.snd, ∀ {levels}, Branch e levels → Fits room levels :=
      List.forall_mem_map.2 fun p hp => (hparts p hp).fits hlimit
    cases halong with
    | callee halong => exact hpath.fits hlimit halong
    | argument he hlevels => exact ⟨0, _, rfl, Nat.zero_le _, hargs _ he hlevels⟩
  | _, _, _, @Path.periodCall _ _ _ _ _ _ _ _ parts hpath _ _ hparts _ _, _, halong => by
    have hargs : ∀ e ∈ parts.map Prod.snd, ∀ {levels}, Branch e levels → Fits room levels :=
      List.forall_mem_map.2 fun p hp => (hparts p hp).fits hlimit
    cases halong with
    | callee halong =>
      obtain ⟨n, inner, rfl, hn, hfits⟩ := hpath.fits hlimit halong
      exact ⟨n, inner, rfl, Nat.le_succ_of_le hn, hfits⟩
    | argument he hlevels => exact ⟨0, _, rfl, Nat.zero_le _, hargs _ he hlevels⟩

end

/-- An atom is no chain. -/
theorem Atom.changes_cons {depth : Nat} {ts : List Token} {e : Expr} (h : Atom limit depth ts e)
    (es : List Expr) : changes (e :: es) = [] := by
  cases h <;> rfl

/-- A chain has a chain for its first operand only if it has changed its connector. -/
theorem Chain.exists_changes {depth n : Nat} : ∀ {ts : List Token} {op : Connector}
    {operands : List Expr}, Chain limit depth ts n op operands →
      ∃ k ≤ n, ∀ more, changes (operands ++ more) = List.replicate k .change
  | _, _, _, .pair hleft _ _ => ⟨0, Nat.le_refl 0, fun more => hleft.changes_cons _⟩
  | _, _, _, @Chain.same _ _ _ _ _ _ _ _ right hchain _ _ => by
    obtain ⟨k, hk, hchanges⟩ := hchain.exists_changes
    exact ⟨k, hk, fun more => by rw [List.append_assoc, hchanges]⟩
  | _, _, _, .change _ _ _ _ => ⟨1, Nat.le_add_left 1 _, fun _ => rfl⟩

mutual

/-- **The levels of an atom fit into what is left of the budget.** -/
theorem Atom.fits {depth room : Nat} (hlimit : depth + room = limit) :
    ∀ {ts : List Token} {e : Expr}, Atom limit depth ts e →
      ∀ {levels : List Level}, Branch e levels → Fits room levels
  | _, _, .comparison hleft _ hright, _, hbranch => by
    cases hbranch with
    | left hlevels => exact hleft.fits hlimit hlevels
    | right hlevels => exact hright.fits hlimit hlevels
    | path halong => cases halong
  | _, _, .group hdepth hcondition _, _, hbranch => by
    obtain ⟨room, rfl⟩ : ∃ n, room = n + 1 := ⟨room - 1, by omega⟩
    have hinner : depth + 1 + room = limit := by omega
    cases hbranch with
    | group hlevels =>
      obtain ⟨k, inner, rfl, hk, hfits⟩ := hcondition.fits hinner hlevels
      exact .enter rfl rfl hk hfits
    | path halong => cases halong

/-- **The levels of a chain are no more changes than it makes, and then those of an atom.** -/
theorem Chain.fits {depth room : Nat} (hlimit : depth + room = limit) :
    ∀ {ts : List Token} {n : Nat} {op : Connector} {operands : List Expr},
      Chain limit depth ts n op operands → ∀ {e : Expr} {levels : List Level}, e ∈ operands →
        Branch e levels → ∃ k inner,
          changes operands ++ levels = List.replicate k .change ++ inner ∧ k ≤ n ∧ Fits room inner
  | _, _, _, _, .pair hleft _ hright, e, levels, he, hlevels => by
    refine ⟨0, levels, by rw [hleft.changes_cons]; rfl, Nat.zero_le _, ?_⟩
    rcases (List.mem_cons.1 he).imp_right List.mem_singleton.1 with he | he
    · exact hleft.fits hlimit (he ▸ hlevels)
    · exact hright.fits hlimit (he ▸ hlevels)
  | _, _, _, _, @Chain.same _ _ _ _ _ _ _ operands right hchain _ hright, e, levels, he,
      hlevels => by
    obtain ⟨k, hk, hchanges⟩ := hchain.exists_changes
    rcases List.mem_append.1 he with he | he
    · -- what has been appended is not the first operand
      rw [hchanges, ← hchanges [], List.append_nil]
      exact hchain.fits hlimit he hlevels
    · have hfits := hright.fits hlimit (List.mem_singleton.1 he ▸ hlevels)
      exact ⟨k, levels, by rw [hchanges], hk, hfits⟩
  | _, _, _, _, .change hchain _ _ hright, e, levels, he, hlevels => by
    rcases (List.mem_cons.1 he).imp_right List.mem_singleton.1 with rfl | he
    · -- all that comes before is a chain, which has its own changes on the branch
      cases hlevels with
      | emptyChain => exact ⟨1, [], rfl, Nat.le_add_left 1 _, .leaf⟩
      | operand he hlevels =>
        obtain ⟨k, inner, hk, hle, hfits⟩ := hchain.fits hlimit he hlevels
        exact ⟨k + 1, inner, congrArg (Level.change :: ·) hk, Nat.succ_le_succ hle, hfits⟩
      | path halong => cases halong
    · exact ⟨1, levels, rfl, Nat.le_add_left 1 _, hright.fits hlimit (he ▸ hlevels)⟩

/-- **The levels of a condition are changes that fit into what is left of the budget, and then
levels that do so beside them.** -/
theorem Condition.fits {depth room : Nat} (hlimit : depth + room = limit) :
    ∀ {ts : List Token} {e : Expr}, Condition limit depth ts e →
      ∀ {levels : List Level}, Branch e levels → ∃ k inner,
        levels = List.replicate k .change ++ inner ∧ k ≤ room ∧ Fits room inner
  | _, _, .atom hatom, levels, hbranch =>
    ⟨0, levels, rfl, Nat.zero_le room, hatom.fits hlimit hbranch⟩
  | _, _, .chain hchain hchanges, _, hbranch => by
    cases hbranch with
    | emptyChain => exact ⟨0, [], rfl, Nat.zero_le room, .leaf⟩
    | operand he hlevels =>
      obtain ⟨k, inner, hk, hle, hfits⟩ := hchain.fits hlimit he hlevels
      exact ⟨k, inner, hk, by omega, hfits⟩
    | path halong => cases halong

end

end Grammar

open Grammar

namespace Expr

/-- What is accepted is the tree of a condition. -/
theorem exists_condition_of_ofTokens {tokens : List Token} {e : Expr}
    (h : ofTokens tokens = .ok e) : ∃ ts, Condition maxDepth 0 ts e := by
  obtain ⟨-, rest, hrun, -⟩ := Parser.parse_eq_ok_iff.1 h
  obtain ⟨ts, -, hcondition⟩ :=
    condition_reads _ maxDepth 0 (Nat.zero_add _) _ e (congrArg (fun r => r.1.expr) hrun)
  exact ⟨ts, hcondition⟩

/-- **How deep accepted trees are.**  On every branch of an accepted tree no more than `maxDepth`
groups, arrays, objects and paths are entered.  The changes of the outermost chain come first and
are no more than `maxDepth` either, and in what follows the steps of each path and the changes of
each chain fit beside what is around it.  All together are `maxDepth * (maxDepth + 3) / 2` levels at
the most. -/
theorem fits_branch {tokens : List Token} {e : Expr} (h : ofTokens tokens = .ok e)
    {levels : List Level} (hbranch : Branch e levels) :
    (∃ k inner, levels = List.replicate k .change ++ inner ∧ k ≤ maxDepth ∧
        Fits maxDepth inner) ∧
      levels.countP Level.isEntered ≤ maxDepth ∧
      2 * levels.length ≤ maxDepth * (maxDepth + 3) := by
  obtain ⟨ts, hcondition⟩ := exists_condition_of_ofTokens h
  obtain ⟨k, inner, rfl, hk, hfits⟩ := hcondition.fits (Nat.zero_add maxDepth) hbranch
  refine ⟨⟨k, inner, rfl, hk, hfits⟩, ?_, ?_⟩
  · have hnone : (List.replicate k Level.change).countP Level.isEntered = 0 := by
      rw [List.countP_replicate]
      rfl
    rw [List.countP_append, hnone, Nat.zero_add]
    exact hfits.countP_le
  · have hinner := hfits.length_le
    have hroom : maxDepth * (maxDepth + 3) = maxDepth * (maxDepth + 1) + 2 * maxDepth := by
      rw [Nat.mul_comm 2, ← Nat.mul_add]
    rw [List.length_append, List.length_replicate, hroom]
    omega

/-! ## A branch with more levels than the budget has units -/

/-- `e` with a name after a period, `n` times. -/
def dotted : (n : Nat) → Expr → Expr
  | 0, e => e
  | n + 1, e => .step (dotted n e) "a"

theorem along_dotted (n : Nat) {e : Expr} {levels : List Level} (h : Along e levels) :
    Along (dotted n e) (List.replicate n .step ++ levels) := by
  induction n with
  | zero => exact h
  | succ n ih => exact .step ih

/-- A period and a name, `n` times from an offset on. -/
def dots (offset n : Nat) : List Token :=
  (List.range n).flatMap fun i =>
    [⟨.punct .period, ".", offset + 2 * i⟩, ⟨.segment, "a", offset + 2 * i + 1⟩]

/-- A call with 15 steps in its argument and 16 steps after it. -/
def stepsQuery : Query where
  source := "a(a.a.a.a.a.a.a.a.a.a.a.a.a.a.a.a).a.a.a.a.a.a.a.a.a.a.a.a.a.a.a.a = 1"
  tokens := [⟨.segment, "a", 0⟩, ⟨.punct .openParen, "(", 1⟩, ⟨.segment, "a", 2⟩] ++ dots 3 15 ++
    [⟨.punct .closeParen, ")", 33⟩] ++ dots 34 16 ++
    [⟨.comparator .equal, "=", 67⟩, ⟨.literal .number, "1", 69⟩, ⟨.endOfInput, "", 70⟩]
  ofText_source := by with_unfolding_all rfl

/-- The tree of `stepsQuery`. -/
def stepsExpr : Expr :=
  .comparison (dotted 16 (.call (.root "a") [dotted 15 (.root "a")])) .equal (.literal (.int 1) "1")

theorem ofTokens_stepsQuery : ofTokens stepsQuery.tokens = .ok stepsExpr := by
  with_unfolding_all rfl

/-- The levels of `stepsQuery` down to the innermost name. -/
def stepsLevels : List Level :=
  .path :: (List.replicate 16 .step ++ .path :: (List.replicate 15 .step ++ []))

theorem branch_stepsExpr : Branch stepsExpr stepsLevels :=
  .left (.path (along_dotted 16 (.argument List.mem_cons_self (.path (along_dotted 15 .root)))))

theorem fits_branch_stepsQuery : ofTokens stepsQuery.tokens = .ok stepsExpr ∧
    Branch stepsExpr stepsLevels ∧ stepsLevels.countP Level.isEntered ≤ maxDepth ∧
      2 * stepsLevels.length ≤ maxDepth * (maxDepth + 3) :=
  ⟨ofTokens_stepsQuery, branch_stepsExpr, (fits_branch ofTokens_stepsQuery branch_stepsExpr).2⟩

/-- **A branch can have more levels than `maxDepth`:** what has been read pays nothing for the steps
that come after it and stand above it in the tree. -/
theorem long_branch_of_stepsQuery : ∃ e levels, ofTokens stepsQuery.tokens = .ok e ∧
    Branch e levels ∧ levels.length = maxDepth + 1 :=
  ⟨stepsExpr, stepsLevels, ofTokens_stepsQuery, branch_stepsExpr, rfl⟩

end Expr

end FilterQuery
