import Graft.Tree.Basic

/-! # Induction on trees

What holds of a tree whenever it holds of all its children holds of every tree.
-/

set_option autoImplicit false

namespace Graft.Tree

theorem inductionOn {motive : Tree → Prop} (t : Tree)
    (mk : ∀ form attrs, (∀ c ∈ form.children, motive c) → motive ⟨form, attrs⟩) : motive t := by
  refine @Tree.rec motive (fun form => ∀ c ∈ form.children, motive c) (fun ts => ∀ c ∈ ts, motive c)
    (fun r => ∀ c ∈ r.children, motive c) (fun args => ∀ c ∈ Arg.children args, motive c)
    (fun m => ∀ c ∈ m.children, motive c) (fun params => ∀ c ∈ Param.children params, motive c)
    (fun o => ∀ c ∈ o.toList, motive c) (fun ts => ∀ c ∈ ts.getD [], motive c)
    (fun a => motive a.value) (fun p => ∀ c ∈ p.default.toList, motive c)
    mk ?_ ?_ ?_ ?_ ?_ ?_ ?_ ?_ ?_ ?_ ?_ ?_ ?_ ?_ ?_ ?_ ?_ ?_ ?_ ?_ ?_ ?_ ?_ ?_ ?_ ?_ ?_ ?_ ?_ ?_ ?_
      ?_ ?_ ?_ ?_ ?_ ?_ ?_ ?_ ?_ ?_ ?_ ?_ t
  all_goals
    clear mk
    intros
    grind [Form.children, Reference.children, Member.children, Arg.children, Param.children,
      Option.toList]

end Graft.Tree
