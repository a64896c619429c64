import FilterQuery.Proofs.Expr.Shape
import FilterQuery.Proofs.Grammar.Language

/-!
# Proofs/Grammar/Descent — how far it is from the root of a tree to a leaf

    f(a).b(c.d) . e      5 ── e
                         4 ─── call of b ──── argument: path of c and d, with a unit less
                         3 ──── b
                         2 ───── call of f ── argument: a
                         1 ────── f

Whoever walks a tree from its root, as evaluation and writing do, is as deep in it as a **descent**
has nodes.  With `room` left in the nesting budget a value has no descent of more than
`room * room + 1` nodes: each period of a path has a name and a call at the most, there are no more
periods than room, and an argument has a unit less.  Groups and chains around that add as many nodes
as there is room once more.  **From a condition at the top no descent has more than
`(maxDepth + 1) * (maxDepth + 1)` nodes, however long the text** (`noDeeper_of_condition`).
-/

namespace FilterQuery

namespace Expr

/-- The nodes from an expression downwards, from each to one of those that it is made of. -/
inductive Descent : Expr → List Expr → Prop
  | here {e : Expr} : Descent e [e]
  | into {e x : Expr} {nodes : List Expr} : x ∈ e.children → Descent x nodes →
      Descent e (e :: nodes)

/-- No descent from an expression has more than `n` nodes. -/
def NoDeeper (n : Nat) (e : Expr) : Prop :=
  ∀ nodes, Descent e nodes → nodes.length ≤ n

namespace NoDeeper

variable {n m : Nat} {e : Expr}

theorem mono (h : NoDeeper n e) (hle : n ≤ m) : NoDeeper m e :=
  fun nodes hnodes => (h nodes hnodes).trans hle

/-- An expression is deeper by one node than what it is made of. -/
theorem of_children (h : ∀ x ∈ e.children, NoDeeper n x) (hlt : n < m) : NoDeeper m e := by
  rintro nodes (_ | ⟨hx, hnodes⟩)
  · exact Nat.one_le_of_lt hlt
  · exact (Nat.succ_le_succ (h _ hx _ hnodes)).trans hlt

end NoDeeper

end Expr

namespace Grammar

open FilterQuery.Expr

variable {limit : Nat}

theorem succ_mul_succ (n : Nat) : (n + 1) * (n + 1) = n * n + 2 * n + 1 := by
  rw [Nat.add_mul, Nat.mul_add]
  omega

mutual

/-- **How deep a value is.** -/
theorem Operand.noDeeper {depth room : Nat} (hlimit : depth + room = limit) :
    ∀ {ts : List Token} {e : Expr}, Operand limit depth ts e → NoDeeper (room * room + 1) e
  | _, _, .literal _ _ => NoDeeper.of_children (fun _ hx => nomatch hx) (Nat.succ_pos _)
  | _, _, .array hdepth hparts _ _ => by
    obtain ⟨room, rfl⟩ : ∃ n, room = n + 1 := ⟨room - 1, by omega⟩
    refine NoDeeper.of_children (n := room * room + 1) (List.forall_mem_map.2 fun p hp => ?_) ?_
    · exact (hparts p hp).noDeeper (by omega)
    · rw [succ_mul_succ]
      omega
  | _, _, .object hdepth _ hvalues _ _ hmerges => by
    obtain ⟨room, rfl⟩ : ∃ n, room = n + 1 := ⟨room - 1, by omega⟩
    refine NoDeeper.of_children (n := room * room + 1) (List.forall_mem_map.2 fun x hx => ?_) ?_
    · obtain ⟨w, hw, rfl⟩ := List.mem_map.1 (hmerges.subset hx)
      exact (hvalues w hw).noDeeper (by omega)
    · rw [succ_mul_succ]
      omega
  | _, e, .path hdepth hpath hsteps => by
    obtain ⟨room, rfl⟩ : ∃ n, room = n + 1 := ⟨room - 1, by omega⟩
    have hinner : depth + 1 + room = limit := by omega
    refine (hpath.noDeeper hinner).mono ?_
    have hcall := Bool.toNat_le e.isCall
    rw [succ_mul_succ]
    omega

/-- **How deep a path is:** each period has a name and a call below it at the most. -/
theorem Path.noDeeper {depth room : Nat} (hlimit : depth + room = limit) :
    ∀ {steps : Nat} {ts : List Token} {e : Expr}, Path limit depth ts steps e →
      NoDeeper (2 * steps + 1 + room * room + e.isCall.toNat) e
  | _, _, _, .name _ => NoDeeper.of_children (n := 0) (fun _ hx => nomatch hx) (by omega)
  | _, _, _, @Path.step _ _ _ _ parent _ _ hparent _ _ => by
    have hcall := Bool.toNat_le parent.isCall
    exact NoDeeper.of_children (List.forall_mem_singleton.2 (hparent.noDeeper hlimit)) (by omega)
  | _, _, _, .call hcallee hcall hparts _ _ => by
    have hbelow := hcallee.noDeeper hlimit
    rw [hcall] at hbelow
    refine NoDeeper.of_children (List.forall_mem_cons.2 ⟨hbelow, List.forall_mem_map.2 ?_⟩)
      (Nat.lt_succ_self _)
    exact fun p hp => ((hparts p hp).noDeeper hlimit).mono (by omega)
  | _, _, _, .periodCall hcallee hcall _ hparts _ _ => by
    have hbelow := hcallee.noDeeper hlimit
    rw [hcall] at hbelow
    refine NoDeeper.of_children (List.forall_mem_cons.2 ⟨hbelow, List.forall_mem_map.2 ?_⟩) ?_
    · exact fun p hp => ((hparts p hp).noDeeper hlimit).mono (by omega)
    · rw [Expr.isCall, Bool.toNat_true, Bool.toNat_false]
      omega

end

/-- How deep an atom may be with room left in the budget. -/
def atomRoom (room : Nat) : Nat :=
  room * room + 2 + min room 1

mutual

/-- **How deep an atom is.** -/
theorem Atom.noDeeper {depth room : Nat} (hlimit : depth + room = limit) :
    ∀ {ts : List Token} {e : Expr}, Atom limit depth ts e → NoDeeper (atomRoom room) e
  | _, _, .comparison hleft _ hright => by
    have hbelow := List.forall_mem_singleton.2 (hright.noDeeper hlimit)
    exact NoDeeper.of_children (List.forall_mem_cons.2 ⟨hleft.noDeeper hlimit, hbelow⟩)
      (Nat.le_add_right _ _)
  | _, _, .group hdepth hcondition _ => by
    obtain ⟨room, rfl⟩ : ∃ n, room = n + 1 := ⟨room - 1, by omega⟩
    have hinner : depth + 1 + room = limit := by omega
    refine NoDeeper.of_children (List.forall_mem_singleton.2 (hcondition.noDeeper hinner)) ?_
    rw [atomRoom, atomRoom, succ_mul_succ]
    omega

/-- **How deep the operands of a chain are:** each change of connector among them adds a node. -/
theorem Chain.noDeeper {depth room : Nat} (hlimit : depth + room = limit) :
    ∀ {ts : List Token} {n : Nat} {op : Connector} {operands : List Expr},
      Chain limit depth ts n op operands → ∀ x ∈ operands, NoDeeper (n + atomRoom room) x
  | _, _, _, _, .pair hleft _ hright => by
    rw [Nat.zero_add]
    exact List.forall_mem_cons.2
      ⟨hleft.noDeeper hlimit, List.forall_mem_singleton.2 (hright.noDeeper hlimit)⟩
  | _, n, _, _, .same hchain _ hright => by
    have hlast := (hright.noDeeper hlimit).mono (Nat.le_add_left _ n)
    exact List.forall_mem_append.2
      ⟨hchain.noDeeper hlimit, List.forall_mem_singleton.2 hlast⟩
  | _, _, _, _, @Chain.change _ _ n _ _ _ _ _ _ _ hchain _ _ hright => by
    have hlast := (hright.noDeeper hlimit).mono (Nat.le_add_left _ (n + 1))
    refine List.forall_mem_cons.2 ⟨?_, List.forall_mem_singleton.2 hlast⟩
    exact NoDeeper.of_children (hchain.noDeeper hlimit) (by omega)

/-- **How deep a condition is.** -/
theorem Condition.noDeeper {depth room : Nat} (hlimit : depth + room = limit) :
    ∀ {ts : List Token} {e : Expr}, Condition limit depth ts e →
      NoDeeper (room + 1 + atomRoom room) e
  | _, _, .atom hatom => (hatom.noDeeper hlimit).mono (Nat.le_add_left _ _)
  | _, _, .chain hchain hchanges => NoDeeper.of_children (hchain.noDeeper hlimit) (by omega)

end

end Grammar

/-- **No descent from the root of a condition is longer than a constant.** -/
theorem Expr.noDeeper_of_condition {ts : List Token} {e : Expr}
    (h : Grammar.Condition maxDepth 0 ts e) : e.NoDeeper ((maxDepth + 1) * (maxDepth + 1)) :=
  (h.noDeeper (Nat.zero_add maxDepth)).mono (by decide)

end FilterQuery
