import Mathlib.Logic.Basic
import Mathlib.Tactic.Common

/-!
# Loops that can be left

A loop body of an imperative program goes on to the next round, returns from the function, or
faults. `Flow ε σ` is such an outcome with the state it leaves behind (a fault keeps the state:
what was written before an exception stays written), and `forEach body l s` is the loop over `l`.

* `forEach_append`, `forEach_map`: a loop over a concatenation, and over a mapped list.
* `forEach_state_induction`: an invariant of the body is an invariant of the loop, however it is
  left.

`modifyEach body l` is the loop over `l` that writes each element in place;
`modifyEach_append_cons` is about a loop that leaves all elements but one as they are.
-/

namespace TPST

/-- How a piece of code ends: with the next statement, by `return`, or by a fault. -/
inductive Flow (ε σ : Type*)
  | next (s : σ)
  | ret (s : σ)
  | fault (e : ε) (s : σ)
  deriving DecidableEq, Repr

namespace Flow

variable {ε σ α β : Type*}

/-- The state at the end. -/
def state : Flow ε σ → σ
  | next s => s
  | ret s => s
  | fault _ s => s

@[simp] theorem state_next (s : σ) : (next s : Flow ε σ).state = s := rfl

@[simp] theorem state_ret (s : σ) : (ret s : Flow ε σ).state = s := rfl

@[simp] theorem state_fault (e : ε) (s : σ) : (fault e s).state = s := rfl

/-- Run `k` if the code before it went on. -/
def andThen : Flow ε σ → (σ → Flow ε σ) → Flow ε σ
  | next s, k => k s
  | ret s, _ => ret s
  | fault e s, _ => fault e s

@[simp] theorem next_andThen (s : σ) (k : σ → Flow ε σ) : (next s).andThen k = k s := rfl

@[simp] theorem ret_andThen (s : σ) (k : σ → Flow ε σ) : (ret s).andThen k = ret s := rfl

@[simp] theorem fault_andThen (e : ε) (s : σ) (k : σ → Flow ε σ) :
    (fault e s).andThen k = fault e s := rfl

theorem andThen_assoc (r : Flow ε σ) (k k' : σ → Flow ε σ) :
    (r.andThen k).andThen k' = r.andThen fun s => (k s).andThen k' := by
  cases r <;> rfl

/-- The same outcome, with the state as a part of a larger one. -/
def map (f : σ → α) : Flow ε σ → Flow ε α
  | next s => next (f s)
  | ret s => ret (f s)
  | fault e s => fault e (f s)

@[simp] theorem map_next (f : σ → α) (s : σ) : (next s : Flow ε σ).map f = next (f s) := rfl

@[simp] theorem map_fault (f : σ → α) (e : ε) (s : σ) : (fault e s).map f = fault e (f s) := rfl

theorem map_map (g : α → β) (f : σ → α) (r : Flow ε σ) : (r.map f).map g = r.map (g ∘ f) := by
  cases r <;> rfl

/-- The code faulted. -/
def isFault : Flow ε σ → Bool
  | fault _ _ => true
  | _ => false

@[simp] theorem isFault_next (s : σ) : (next s : Flow ε σ).isFault = false := rfl

@[simp] theorem isFault_ret (s : σ) : (ret s : Flow ε σ).isFault = false := rfl

@[simp] theorem isFault_fault (e : ε) (s : σ) : (fault e s).isFault = true := rfl

/-- `for (a : l) body`. -/
def forEach (body : α → σ → Flow ε σ) : List α → σ → Flow ε σ
  | [], s => next s
  | a :: l, s => (body a s).andThen (forEach body l)

@[simp] theorem forEach_nil (body : α → σ → Flow ε σ) (s : σ) : forEach body [] s = next s := rfl

@[simp] theorem forEach_cons (body : α → σ → Flow ε σ) (a : α) (l : List α) (s : σ) :
    forEach body (a :: l) s = (body a s).andThen (forEach body l) := rfl

theorem forEach_append (body : α → σ → Flow ε σ) (l₁ l₂ : List α) (s : σ) :
    forEach body (l₁ ++ l₂) s = (forEach body l₁ s).andThen (forEach body l₂) := by
  induction l₁ generalizing s with
  | nil => rfl
  | cons a l ih =>
    rw [List.cons_append, forEach_cons, forEach_cons, andThen_assoc]
    congr 1
    funext s'
    exact ih s'

theorem forEach_map (body : β → σ → Flow ε σ) (f : α → β) (l : List α) (s : σ) :
    forEach body (l.map f) s = forEach (fun a => body (f a)) l s := by
  induction l generalizing s with
  | nil => rfl
  | cons a l ih =>
    rw [List.map_cons, forEach_cons, forEach_cons]
    congr 1
    funext s'
    exact ih s'

/-- A loop over lists one after another. -/
theorem forEach_flatMap (body : β → σ → Flow ε σ) (f : α → List β) (l : List α) (s : σ) :
    forEach body (l.flatMap f) s = forEach (fun a => forEach body (f a)) l s := by
  induction l generalizing s with
  | nil => rfl
  | cons a l ih =>
    rw [List.flatMap_cons, forEach_append, forEach_cons]
    congr 1
    funext s'
    exact ih s'

theorem forEach_congr {body body' : α → σ → Flow ε σ} {l : List α}
    (h : ∀ a ∈ l, ∀ s, body a s = body' a s) (s : σ) : forEach body l s = forEach body' l s := by
  induction l generalizing s with
  | nil => rfl
  | cons a l ih =>
    rw [forEach_cons, forEach_cons, h a List.mem_cons_self]
    congr 1
    funext s'
    exact ih (fun b hb => h b (List.mem_cons_of_mem a hb)) s'

/-- A loop that passes over some elements. -/
theorem forEach_filter (body : α → σ → Flow ε σ) (p : α → Bool) (l : List α) (s : σ) :
    forEach body (l.filter p) s = forEach (fun a s => if p a then body a s else next s) l s := by
  induction l generalizing s with
  | nil => rfl
  | cons a l ih =>
    by_cases ha : p a
    · rw [List.filter_cons_of_pos ha, forEach_cons, forEach_cons, if_pos ha]
      congr 1
      funext s'
      exact ih s'
    · rw [List.filter_cons_of_neg ha, forEach_cons, if_neg ha, next_andThen]
      exact ih s

/-- What every round preserves holds at the end, however the loop is left. -/
theorem forEach_state_induction (body : α → σ → Flow ε σ) (P : σ → Prop) (l : List α)
    (hbody : ∀ a ∈ l, ∀ s, P s → P (body a s).state) {s : σ} (hs : P s) :
    P (forEach body l s).state := by
  induction l generalizing s with
  | nil => exact hs
  | cons a l ih =>
    have hhead := hbody a (by simp) s hs
    have htail : ∀ b ∈ l, ∀ s, P s → P (body b s).state := fun b hb => hbody b (by simp [hb])
    rw [forEach_cons]
    cases hr : body a s with
    | next s' =>
      rw [hr] at hhead
      exact ih htail hhead
    | ret s' => simpa [hr] using hhead
    | fault e s' => simpa [hr] using hhead

/-- A loop whose body does not return does not return. -/
theorem forEach_ne_ret {body : α → σ → Flow ε σ} (hbody : ∀ a s s', body a s ≠ ret s')
    (l : List α) (s s' : σ) : forEach body l s ≠ ret s' := by
  induction l generalizing s with
  | nil => simp
  | cons a l ih =>
    rw [forEach_cons]
    cases hr : body a s with
    | next s'' => exact ih s''
    | ret s'' => exact absurd hr (hbody a s s'')
    | fault e s'' => simp

/-! ## Writing a list in place -/

/-- `for (a : l) a = body(a)`. -/
def modifyEach (body : α → Flow ε α) : List α → Flow ε (List α)
  | [] => next []
  | a :: l =>
    match body a with
    | next a' => (modifyEach body l).map (a' :: ·)
    | ret a' => ret (a' :: l)
    | fault e a' => fault e (a' :: l)

/-- A loop that leaves each element as it is. -/
theorem modifyEach_of_same {body : α → Flow ε α} {l : List α} (h : ∀ a ∈ l, body a = next a) :
    modifyEach body l = next l := by
  induction l with
  | nil => rfl
  | cons a l ih =>
    have htail : modifyEach body l = next l := ih fun b hb => h b (List.mem_cons_of_mem a hb)
    simp only [modifyEach, h a List.mem_cons_self, htail, map_next]

/-- A loop that leaves each element but one as it is. -/
theorem modifyEach_append_cons {body : α → Flow ε α} {pre post : List α} (a : α)
    (hpre : ∀ b ∈ pre, body b = next b) (hpost : ∀ b ∈ post, body b = next b) :
    modifyEach body (pre ++ a :: post) = (body a).map fun a' => pre ++ a' :: post := by
  induction pre with
  | nil =>
    rw [List.nil_append, modifyEach, modifyEach_of_same hpost]
    cases body a <;> rfl
  | cons b pre ih =>
    have htail := ih fun b' hb' => hpre b' (List.mem_cons_of_mem b hb')
    simp only [List.cons_append, modifyEach, hpre b List.mem_cons_self, htail, map_map]
    rfl

end Flow

end TPST
