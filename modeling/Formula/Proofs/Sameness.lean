/-
Formulas that are the same.  Comparing trees looks neither at the implementations of calls nor
at the bits of numbers, but a parser fixes both: an implementation by the name and the number of
arguments, and the bits by what can be written as a number.  So parsed trees that are the same
are equal.
-/
import Formula.Expr.Eval
import Formula.Proofs.Printing.RoundTrip

namespace Formula

namespace Expr

/-- Trees as they are parsed: numbers are neither negative nor a NaN, and calls are bound by
the settings. -/
inductive Bound (settings : Settings) : Expr → Prop
  | number {code : Nat} (hcode : code ≤ Binary64.infinity) :
      Bound settings (.number (Binary64.ofCode false code))
  | var (name : String) : Bound settings (.var name)
  | call {name : String} {arguments : List Expr} {function : Function}
      (hfunction : settings.function? name arguments.length = some function)
      (harguments : ∀ argument ∈ arguments, Bound settings argument) :
      Bound settings (.call name arguments function.implementation)
  | block {inner : Expr} (hinner : Bound settings inner) : Bound settings (.block inner)
  | unary {op : UnaryOperator} {operand : Expr} (hoperand : Bound settings operand) :
      Bound settings (.unary op operand)
  | binary {op : BinaryOperator} {left right : Expr} (hleft : Bound settings left)
      (hright : Bound settings right) : Bound settings (.binary op left right)

theorem bound_of_derives {format : NumberFormat} {settings : Settings} {tokens : List Placed}
    {tree : Expr} (h : Derives settings (.formula tree) tokens)
    (hscanned : ∀ placed ∈ tokens, format.Scanned placed.token) : tree.Bound settings := by
  have hplain : ∀ placed ∈ tokens, placed.token.isScanned = true := fun placed hplaced =>
    NumberFormat.isScanned_of_scanned (hscanned placed hplaced)
  refine h.scanned_induction hplain ?_ ?_ ?_ (fun _ => .block) (fun _ _ => .unary)
    fun _ _ _ => .binary
  · intro placed hplaced value htoken
    have hread := hscanned placed hplaced
    rw [htoken] at hread
    obtain ⟨code, hcode, rfl, _⟩ := hread
    exact .number hcode
  · exact fun _ _ name _ => .var name
  · intro name arguments function hfunction _ harguments
    obtain rfl := hfunction.1.1
    exact .call (Settings.function?_eq_some_iff.2 hfunction) harguments

theorem sameList_iff {trees others : List Expr}
    (h : ∀ tree ∈ trees, ∀ other ∈ others, tree.same other = true ↔ tree = other) :
    sameList trees others = true ↔ trees = others := by
  induction trees generalizing others with
  | nil => cases others <;> simp [sameList]
  | cons tree trees ih =>
      cases others with
      | nil => simp [sameList]
      | cons other others =>
          have hfirst := h tree List.mem_cons_self other List.mem_cons_self
          have hrest := ih fun next hnext found hfound =>
            h next (List.mem_cons_of_mem _ hnext) found (List.mem_cons_of_mem _ hfound)
          rw [sameList, Bool.and_eq_true, hfirst, hrest, List.cons.injEq]

/-- Trees that are bound alike are the same only if they are equal. -/
theorem Bound.same_iff {settings : Settings} {tree other : Expr} (h : tree.Bound settings)
    (hother : other.Bound settings) : tree.same other = true ↔ tree = other := by
  induction h generalizing other with
  | @number code hcode =>
      cases hother with
      | @number other hother =>
          have hbits := Binary64.toNat_toBits_ofCode hcode
          have hotherBits := Binary64.toNat_toBits_ofCode hother
          rw [same, number.injEq]
          exact Binary64.beq_iff_eq_of_le (le_of_eq_of_le hbits hcode)
            (le_of_eq_of_le hotherBits hother)
      | _ => simp [same]
  | var name =>
      cases hother with
      | var name' => simp [same]
      | _ => simp [same]
  | @call name arguments function hfunction harguments ih =>
      cases hother with
      | @call name' others function' hfunction' hothers =>
          have hlist : sameList arguments others = true ↔ arguments = others :=
            sameList_iff fun argument hargument other hmem =>
              ih argument hargument (hothers other hmem)
          rw [same, Bool.and_eq_true, beq_iff_eq, hlist, call.injEq]
          constructor
          · rintro ⟨rfl, rfl⟩
            obtain rfl := Option.some.inj (hfunction.symm.trans hfunction')
            exact ⟨rfl, rfl, rfl⟩
          · rintro ⟨hname, harguments, _⟩
            exact ⟨hname, harguments⟩
      | _ => simp [same]
  | block hinner ih =>
      cases hother with
      | block hinner' => simp [same, ih hinner']
      | _ => simp [same]
  | unary hoperand ih =>
      cases hother with
      | unary hoperand' => simp [same, ih hoperand']
      | _ => simp [same]
  | binary hleft hright ihleft ihright =>
      cases hother with
      | binary hleft' hright' => simp [same, ihleft hleft', ihright hright', and_assoc]
      | _ => simp [same]

end Expr

theorem bound_of_parse {format : NumberFormat} {settings : Settings} {source : String}
    {tree : Expr} (h : parse format settings source = .ok tree) : tree.Bound settings := by
  obtain ⟨tokens, hmunch, hparse⟩ := parse_eq_ok_iff.1 h
  exact Expr.bound_of_derives (Settings.derives_of_parseWithin hparse).1
    (NumberFormat.scanned_of_mem_munch hmunch)

/-- Parsed trees are the same only if they are equal, with the bits of their numbers and the
implementations of their calls.  So they have the same value in every context, and the same
text in every layout. -/
theorem parse_same_iff {settings : Settings} {format other : NumberFormat}
    {source text : String} {tree found : Expr} (h : parse format settings source = .ok tree)
    (hother : parse other settings text = .ok found) :
    ((tree == found) = true ↔ tree = found) ∧
      ((tree == found) = true → (∀ context, tree.eval context = found.eval context) ∧
        ∀ layout, tree.render layout = found.render layout) := by
  have hsame : (tree == found) = true ↔ tree = found :=
    (bound_of_parse h).same_iff (bound_of_parse hother)
  refine ⟨hsame, fun hbeq => ?_⟩
  obtain rfl := hsame.1 hbeq
  exact ⟨fun _ => rfl, fun _ => rfl⟩

/-- The same call, written with decimal points and with decimal commas. -/
theorem parse_same_iff_smallerTree :
    parse ⟨'.'⟩ .standard "min(1.5, x)" = .ok smallerTree ∧
      parse ⟨','⟩ .standard "min(1,5 ,x)" = .ok smallerTree ∧
      (smallerTree == smallerTree) = true := by
  have hcommas : parse ⟨','⟩ .standard "min(1,5 ,x)" = .ok smallerTree := by
    refine parse_smallerTree_of_munch (a := 0) (b := 3) (c := 4) (d := 8) (e := 9) (f := 10) ?_
    rw [← NumberFormat.toOption_scan]
    rfl
  exact ⟨parse_smallerTree, hcommas, (parse_same_iff parse_smallerTree hcommas).1.2 rfl⟩

end Formula
