import HavokScript.Proofs.Decompile.Substitution
import HavokScript.Tree.Outline

/-!
# What is owed to reads

How often something stands in a tree after inlining is followed with a potential. `Expr.parts` lists what
an expression is made of. At each point of a run the reads behind it are owed what stands for their
registers: `Access.pending` adds this up, over the reads that no write comes in front of. A write that is
kept grants its register to the reads that see it (`Access.granted`), which are as many as counting finds
(`Access.count_reads`). Both together are what a scope has to supply (`Scope.supply`), and what is filled
into an expression is taken from there (`Expr.count_fill`).
-/

namespace HavokScript

/-! ## Parts -/

/-- What an expression is at its root. -/
inductive Expr.Part where
  /-- a node that is no register -/
  | node (kind : String) (address : Int) (label : Bytes)
  /-- the read of a register node -/
  | read (id : Nat)
  /-- a place of a shared expression -/
  | shared (number : Nat)
  deriving DecidableEq

/-- The root of an expression. -/
def Expr.part : Expr → Expr.Part
  | .register r => .read r.id
  | .shared n _ => .shared n
  | e => .node e.kind e.address e.label

mutual

/-- The parts of an expression. -/
def Expr.parts : Expr → List Expr.Part
  | .call a f args => (Expr.call a f args).part :: (f.parts ++ Expr.partsAll args)
  | .binary a op l r => (Expr.binary a op l r).part :: (l.parts ++ r.parts)
  | .unary a op e => (Expr.unary a op e).part :: e.parts
  | .table a ks vs => (Expr.table a ks vs).part :: (Expr.partsAll ks ++ Expr.partsAll vs)
  | .index a t k => (Expr.index a t k).part :: (t.parts ++ k.parts)
  | .shared n e => .shared n :: e.parts
  | e => [e.part]

/-- The parts of expressions. -/
def Expr.partsAll : List Expr → List Expr.Part
  | [] => []
  | e :: es => e.parts ++ Expr.partsAll es

end

@[simp] theorem Expr.partsAll_append (es fs : List Expr) :
    Expr.partsAll (es ++ fs) = Expr.partsAll es ++ Expr.partsAll fs := by
  induction es with
  | nil => rfl
  | cons e es ih => rw [List.cons_append, partsAll, ih, partsAll, List.append_assoc]

theorem Expr.mem_partsAll {p : Expr.Part} {es : List Expr} :
    p ∈ Expr.partsAll es ↔ ∃ e ∈ es, p ∈ e.parts := by
  induction es with
  | nil => simp [partsAll]
  | cons e es ih => simp [partsAll, ih]

theorem Expr.partsAll_perm {es fs : List Expr} (h : es.Perm fs) :
    (Expr.partsAll es).Perm (Expr.partsAll fs) := by
  induction h with
  | nil => exact .nil
  | cons e _ ih => exact ih.append_left e.parts
  | swap e f es => exact List.perm_append_comm_assoc ..
  | trans _ _ ih ih' => exact ih.trans ih'

/-- How often a part is among others, reads of registers left out. -/
def Expr.Part.owned : Expr.Part → List Expr.Part → Nat
  | .read _, _ => 0
  | k, ps => ps.count k

namespace Expr.Part

@[simp] theorem owned_nil (k : Part) : k.owned [] = 0 := by cases k <;> rfl

@[simp] theorem owned_append (k : Part) (ps qs : List Part) :
    k.owned (ps ++ qs) = k.owned ps + k.owned qs := by
  cases k <;> simp [owned]

theorem owned_read (k : Expr.Part) (id : Nat) : k.owned [read id] = 0 := by cases k <;> rfl

/-- A part that is no read of a register is counted like any other. -/
theorem count_cons {k p : Expr.Part} {ps qs : List Expr.Part} {m : Nat} (hp : ∀ id, p ≠ read id)
    (h : qs.count k = k.owned ps + m) : (p :: qs).count k = k.owned (p :: ps) + m := by
  cases k with
  | read id =>
    rw [List.count_cons_of_ne (hp id), h]
    rfl
  | _ =>
    simp only [owned, List.count_cons] at h ⊢
    omega

end Expr.Part

/-! ## What is owed to reads -/

namespace Access

/-- The function with another value at a place. -/
def put (f : Int → Nat) (index : Int) (x : Nat) : Int → Nat := fun q => if q = index then x else f q

/-- What reads are owed that see none of the writes, if `f` tells what each register stands for. -/
def pending (f : Int → Nat) : List Access → Nat
  | [] => 0
  | .read r :: as => f r.index + pending f as
  | .write r :: as => pending (put f r.index 0) as

/-- How many reads of a register see none of the writes. -/
def exposed (index : Int) (as : List Access) : Nat := pending (put (fun _ => 0) index 1) as

/-- What all writes grant to the reads that see them. -/
def granted (g : Register → Nat) : List Access → Nat
  | [] => 0
  | .read _ :: as => granted g as
  | .write r :: as => g r * exposed r.index as + granted g as

theorem put_put (f : Int → Nat) (index : Int) (x y : Nat) :
    put (put f index x) index y = put f index y := by
  funext q
  simp only [put]
  split <;> rfl

theorem put_comm (f : Int → Nat) {i j : Int} (h : i ≠ j) (x y : Nat) :
    put (put f i x) j y = put (put f j y) i x := by
  funext q
  simp only [put]
  split_ifs <;> first | rfl | omega

theorem put_zero (index : Int) : put (fun _ => 0) index 0 = fun _ => 0 := by
  funext q
  simp [put]

@[simp] theorem pending_zero (as : List Access) : pending (fun _ => 0) as = 0 := by
  induction as with
  | nil => rfl
  | cons a as ih =>
    cases a with
    | read r => simpa [pending] using ih
    | write r => rw [pending, put_zero, ih]

theorem pending_reads (f : Int → Nat) (rs : List Register) (as : List Access) :
    pending f (rs.map read ++ as) = (rs.map fun r => f r.index).sum + pending f as := by
  induction rs with
  | nil => simp
  | cons r rs ih =>
    simp only [List.map_cons, List.cons_append, pending, ih, List.sum_cons, Nat.add_assoc]

/-- What stands for a register is owed to each of its reads that see no write. -/
theorem pending_put (f : Int → Nat) (index : Int) (x : Nat) (as : List Access) :
    pending (put f index x) as = pending (put f index 0) as + x * exposed index as := by
  induction as generalizing f with
  | nil => rfl
  | cons a as ih =>
    cases a with
    | read r =>
      simp only [pending, exposed, ih f]
      rw [← exposed]
      by_cases h : r.index = index
      · simp only [put, h, if_true, Nat.mul_add, Nat.mul_one]
        omega
      · simp only [put, h, if_false, Nat.zero_add]
        omega
    | write r =>
      simp only [pending, exposed]
      by_cases h : index = r.index
      · rw [h, put_put, put_put, put_put, put_zero, pending_zero, Nat.mul_zero, Nat.add_zero]
      · rw [put_comm f h, put_comm f h, put_comm _ h, ih, put_zero, exposed]

theorem granted_reads (g : Register → Nat) (rs : List Register) (as : List Access) :
    granted g (rs.map read ++ as) = granted g as := by
  induction rs with
  | nil => rfl
  | cons r rs ih => exact ih

/-- What later writes grant is part of what all do. -/
theorem granted_le (g : Register → Nat) (as bs : List Access) :
    granted g bs ≤ granted g (as ++ bs) := by
  induction as with
  | nil => exact Nat.le_refl _
  | cons a as ih =>
    cases a with
    | read r => exact ih
    | write r => exact ih.trans (Nat.le_add_left _ _)

theorem granted_zero {g : Register → Nat} (hg : ∀ r, g r = 0) (as : List Access) :
    granted g as = 0 := by
  induction as with
  | nil => rfl
  | cons a as ih =>
    cases a with
    | read r => exact ih
    | write r => rw [granted, hg, ih, Nat.zero_mul]

/-- Performing accesses counts the reads of a register node: those that see it in front of the accesses
and those that see a write of it. -/
theorem count_reads {as : List Access} {t t' : Tally} (id : Nat)
    (h : Tally.performAll as t = .ok ((), t')) :
    t'.reads.count id = t.reads.count id +
      pending (fun q => if t.live q = some id then 1 else 0) as +
        granted (fun r => if r.id = id then 1 else 0) as := by
  induction as generalizing t with
  | nil =>
    cases h
    rfl
  | cons a as ih =>
    obtain ⟨⟨⟩, u, hu, h⟩ := ok_of_bind h
    rw [ih h]
    cases a with
    | read r =>
      simp only [Tally.perform, Tally.read] at hu
      cases hlive : t.live r.index with
      | none =>
        rw [hlive] at hu
        cases hu
      | some id' =>
        rw [hlive] at hu
        cases hu
        simp only [pending, granted, hlive, List.count_cons, Option.some.injEq, beq_iff_eq]
        omega
    | write r =>
      cases hu
      have hlive : (fun q => if (t.live.set r.index r.id) q = some id then 1 else 0) =
          put (fun q => if t.live q = some id then 1 else 0) r.index
            (if r.id = id then 1 else 0) := by
        funext q
        simp only [Slots.set, put]
        split_ifs <;> simp_all
      simp only [pending, granted]
      rw [hlive, pending_put]
      omega

/-- No write is seen more often than its register node says. -/
def Covers (as : List Access) : Prop :=
  ∀ before r after, as = before ++ .write r :: after → (exposed r.index after : Int) ≤ r.uses

theorem Covers.append {as bs : List Access} (h : Covers (as ++ bs)) : Covers bs :=
  fun before r after hbs => h (as ++ before) r after (by rw [hbs, List.append_assoc])

/-- Accesses that start with a write of the register: it is seen as often as it says at most. -/
theorem Covers.write {r : Register} {as : List Access} (h : Covers (.write r :: as)) :
    (exposed r.index as : Int) ≤ r.uses := h [] r as rfl

end Access

/-! ## The potential -/

/-- The shared expressions with numbers in a range. -/
def Expr.Part.minted (a b : Nat) : Expr.Part → Nat
  | .shared n => if a ≤ n ∧ n < b then 1 else 0
  | _ => 0

/-- How often a part is in a read of the register. -/
def Expr.Part.grant (k : Expr.Part) (r : Register) : Nat := [Expr.Part.read r.id].count k

/-- How often a part is in what stands for a register. -/
def Slots.weight (live : Slots Expr) (k : Expr.Part) (index : Int) : Nat :=
  (live index).elim 0 fun x => x.parts.count k

/-- What the accesses behind a scope are owed. -/
def Scope.supply (s : Scope) (k : Expr.Part) (as : List Access) : Nat :=
  Access.pending (s.live.weight k) as + Access.granted k.grant as

section

variable {k : Expr.Part}

theorem Expr.Part.minted_add {a b c : Nat} (hab : a ≤ b) (hbc : b ≤ c) :
    k.minted a b + k.minted b c = k.minted a c := by
  cases k with
  | shared n =>
    simp only [minted]
    split_ifs <;> omega
  | _ => rfl

theorem Expr.Part.minted_self (a : Nat) : k.minted a a = 0 := by
  cases k with
  | shared n => exact if_neg fun h => Nat.lt_irrefl _ (Nat.lt_of_lt_of_le h.2 h.1)
  | _ => rfl

theorem Expr.Part.minted_succ (a : Nat) : k.minted a (a + 1) = [Expr.Part.shared a].count k := by
  cases k with
  | shared n =>
    simp only [minted, List.count_singleton, beq_iff_eq, Expr.Part.shared.injEq]
    split_ifs <;> omega
  | _ => rfl

theorem Slots.weight_set (live : Slots Expr) (index : Int) (x : Expr) :
    (live.set index x).weight k = Access.put (live.weight k) index (x.parts.count k) := by
  funext q
  simp only [weight, Slots.set, Access.put]
  split_ifs <;> rfl

namespace Scope

variable {s : Scope}

/-- A register that stays as it is has its reads granted when it is written. -/
theorem supply_keeping (rs : List Register) (as : List Access) :
    (s.keeping rs).supply k as = s.supply k (rs.map .write ++ as) := by
  induction rs generalizing s with
  | nil => rfl
  | cons r rs ih =>
    have hgrant : (Expr.register r).parts.count k = k.grant r := rfl
    rw [keeping, ih, List.map_cons, List.cons_append, supply, supply, Slots.weight_set,
      Access.pending_put, hgrant, Access.pending, Access.granted, Nat.add_assoc]

theorem supply_reads (rs : List Register) (as : List Access) :
    s.supply k (rs.map .read ++ as) =
      (rs.map fun r => s.live.weight k r.index).sum + s.supply k as := by
  rw [supply, Access.pending_reads, Access.granted_reads, Nat.add_assoc, supply]

/-- What stands for a folded value has the value's parts, and perhaps a number. -/
theorem count_standIn (v : Expr) :
    (s.standIn v).parts.count k = v.parts.count k + k.minted s.next (s.numberAfter v) := by
  have hshared : (Expr.shared s.next v).parts.count k =
      v.parts.count k + k.minted s.next (s.next + 1) := by
    rw [Expr.Part.minted_succ, Nat.add_comm, ← List.count_append]
    rfl
  cases v with
  | call | binary | unary | table | index => exact hshared
  | _ =>
    rw [standIn, numberAfter, Expr.Part.minted_self, Nat.add_zero]
    all_goals nofun

theorem next_le_numberAfter (v : Expr) : s.next ≤ s.numberAfter v := by
  cases v <;> simp [numberAfter]

end Scope

end

/-! ## What substitution spends -/

section

variable {k : Expr.Part} {live : Slots Expr}

theorem Expr.length_fillAll (live : Slots Expr) (es : List Expr) :
    (Expr.fillAll live es).length = es.length := by
  rw [fillAll_eq_map, List.length_map]

mutual

/-- The parts of an expression that was filled are its own and those of what stands for its registers. -/
theorem Expr.count_fill {e : Expr} (he : e.sharedBound = 0) (h : live.Binds e.inputs) :
    (e.fill live).parts.count k =
      k.owned e.parts + (e.inputs.map fun r => live.weight k r.index).sum := by
  cases e with
  | register r =>
    obtain ⟨x, hx⟩ := Option.isSome_iff_exists.mp (h r (List.mem_singleton_self r))
    have hparts : (register r).parts = [.read r.id] := rfl
    rw [fill, hparts, Part.owned_read, inputs_register, List.map_singleton, List.sum_singleton,
      Slots.weight, hx, Nat.zero_add]
    rfl
  | call a f args =>
    rw [sharedBound, Nat.max_eq_zero_iff] at he
    rw [inputs_call, Slots.Binds.append] at h
    have hpart : (call a (f.fill live) (Expr.fillAll live args)).part = (call a f args).part := by
      simp only [part, label, length_fillAll]
      rfl
    rw [fill, parts, hpart, parts, inputs_call, List.map_append, List.sum_append]
    refine Part.count_cons nofun ?_
    rw [List.count_append, Expr.count_fill he.1 h.1, Expr.count_fillAll he.2 h.2, Part.owned_append]
    omega
  | binary a op l r =>
    rw [sharedBound, Nat.max_eq_zero_iff] at he
    rw [inputs_binary, Slots.Binds.append] at h
    rw [fill, parts, parts, inputs_binary, List.map_append, List.sum_append]
    refine Part.count_cons nofun ?_
    rw [List.count_append, Expr.count_fill he.1 h.1, Expr.count_fill he.2 h.2, Part.owned_append]
    omega
  | unary a op e =>
    rw [inputs_unary] at h ⊢
    exact Part.count_cons nofun (Expr.count_fill he h)
  | table a ks vs =>
    rw [sharedBound, Nat.max_eq_zero_iff] at he
    rw [inputs_table, Slots.Binds.append] at h
    rw [fill, parts, parts, inputs_table, List.map_append, List.sum_append]
    refine Part.count_cons nofun ?_
    rw [List.count_append, Expr.count_fillAll he.1 h.1, Expr.count_fillAll he.2 h.2,
      Part.owned_append]
    omega
  | index a t key =>
    rw [sharedBound, Nat.max_eq_zero_iff] at he
    rw [inputs_index, Slots.Binds.append] at h
    rw [fill, parts, parts, inputs_index, List.map_append, List.sum_append]
    refine Part.count_cons nofun ?_
    rw [List.count_append, Expr.count_fill he.1 h.1, Expr.count_fill he.2 h.2, Part.owned_append]
    omega
  | shared n e =>
    rw [sharedBound] at he
    omega
  | _ => exact Part.count_cons nofun (Part.owned_nil k).symm

theorem Expr.count_fillAll {es : List Expr} (hes : Expr.sharedBoundAll es = 0)
    (h : live.Binds (Expr.inputsAll es)) :
    (Expr.partsAll (Expr.fillAll live es)).count k =
      k.owned (Expr.partsAll es) + ((Expr.inputsAll es).map fun r => live.weight k r.index).sum := by
  cases es with
  | nil => simp [fillAll, partsAll]
  | cons e es =>
    rw [sharedBoundAll, Nat.max_eq_zero_iff] at hes
    rw [inputsAll_cons, Slots.Binds.append] at h
    rw [fillAll, partsAll, List.count_append, Expr.count_fill hes.1 h.1,
      Expr.count_fillAll hes.2 h.2, partsAll, Part.owned_append, inputsAll_cons, List.map_append,
      List.sum_append]
    omega

end

end

end HavokScript
