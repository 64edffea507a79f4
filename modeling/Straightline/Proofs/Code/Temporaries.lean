import Mathlib
import Straightline.Code.Builder
import Straightline.Proofs.Target.Globals
import Straightline.Proofs.Target.Rewriting
import Straightline.Proofs.Target.Symbols
import Straightline.Proofs.Text.Decoding

/-!
# Temporaries that are named apart

A function counts the temporaries it makes, and nothing ever sets the count
back: neither what is built nor the passes that take code away
(`Function.Life.numbers`). The printed form of a temporary tells its number
whatever its name is, so that no two temporaries of a function print alike, and
neither do their names in the target (`temporaries_named_apart`).
-/

namespace Straightline

open Code Optimize

/-! ## The life of a function -/

namespace Code

/-- The temporaries that are made for an order along with its instruction. One
that is ready needs none. -/
def Order.fresh : Order → Instr → List Temp
  | .ready _, _ => []
  | _, i => i.temp?.toList

/-- What a function goes through after it was `f`: `ts` are the
temporaries it made since, in order. An instruction goes to a block that
is still there, or nowhere. -/
inductive Function.Life (f : Function) : (ts : List Temp) → Function → Prop
  | start : Life f [] f
  | setExternal {ts : List Temp} {g : Function} (value : Bool) : Life f ts g →
      Life f ts { g with isExternal := value }
  | newBlock {ts : List Temp} {g : Function} (label : String) : Life f ts g →
      Life f ts (g.newBlock label)
  | newTemp {ts : List Temp} {g : Function} (name : String) (type : Ty) : Life f ts g →
      Life f (ts ++ [(g.newTemp name type).1]) (g.newTemp name type).2
  | make {ts : List Temp} {g g' : Function} {i : Instr} (order : Order) :
      order.make g = .ok (i, g') → Life f ts g →
      Life f (ts ++ order.fresh i) g'
  | push {ts : List Temp} {g g' : Function} {i : Instr} (order : Order)
      (index : Nat) : order.make g = .ok (i, g') →
      Life f ts g → Life f (ts ++ order.fresh i) (g'.pushAt index i)
  | pass {ts : List Temp} {g g' : Function} {t : Tally} (p : Pass) :
      p.apply g = .ok (.ok (g', t)) → Life f ts g →
      Life f ts g'
  | optimize {ts : List Temp} {g : Function} {r : Progress} (o : Optimizer) :
      o.runFunction g = .ok r → Life f ts g →
      Life f ts r.function

/-- Whether a function that became `g` numbered the temporaries `ts` on the way,
going on from where it was. -/
structure Function.Numbers (f : Function) (ts : List Temp) (g : Function) : Prop where
  temps : g.temps = f.temps + ts.length
  ids : ts.map Temp.id = List.range' f.temps ts.length

end Code

/-! ## Passes make no temporaries -/

namespace Optimize

theorem Pass.temps_apply {p : Pass} {f f' : Function} {t : Tally}
    (h : p.apply f = .ok (.ok (f', t))) : f'.temps = f.temps := by
  cases p with
  | constantFolding =>
    simp only [Pass.apply] at h
    split at h
    · cases h
    · cases h
      rfl
  | deadCode =>
    cases h
    rw [DeadCode.run]
    split <;> rfl
  | failing message => cases h

theorem temps_runPasses {logging : Bool} {passes : List Pass} {g g' : Progress}
    (h : runPasses logging passes g = .ok g') :
    g'.function.temps = g.function.temps := by
  induction passes generalizing g with
  | nil =>
    cases h
    rfl
  | cons p rest ih =>
    obtain ⟨result, hresult, h⟩ := bind_eq_ok.mp h
    cases result with
    | error e =>
      cases h
      rfl
    | ok done => exact (ih h).trans (Pass.temps_apply hresult)

theorem temps_runRounds {logging : Bool} {passes : List Pass} {limit : Nat}
    {g g' : Progress} (h : runRounds logging passes limit g = .ok g') :
    g'.function.temps = g.function.temps := by
  induction limit generalizing g with
  | zero =>
    cases h
    rfl
  | succ limit ih =>
    obtain ⟨next, hnext, h⟩ := bind_eq_ok.mp h
    have htemps := temps_runPasses hnext
    split at h
    · cases h
      exact htemps
    · exact (ih h).trans htemps

end Optimize

/-! ## The count goes on -/

namespace Code.Function

variable {f g g' : Function} {ts : List Temp}

theorem Numbers.of_temps (h : Numbers f ts g) (htemps : g'.temps = g.temps) :
    Numbers f ts g' :=
  ⟨htemps.trans h.temps, h.ids⟩

theorem Numbers.add (h : Numbers f ts g) {t : Temp} (hid : t.id = g.temps)
    (htemps : g'.temps = g.temps + 1) : Numbers f (ts ++ [t]) g' where
  temps := by
    rw [htemps, h.temps, List.length_append, List.length_singleton]
    omega
  ids := by
    rw [List.map_append, h.ids, List.length_append, List.length_singleton,
      List.range'_concat, List.map_singleton, hid, h.temps, Nat.one_mul]

/-- An order takes the next number for its temporary, or no number if it makes none. -/
theorem Numbers.make (h : Numbers f ts g) {order : Order} {i : Instr}
    (hmake : order.make g = .ok (i, g')) : Numbers f (ts ++ order.fresh i) g' := by
  have hnone : Numbers f (ts ++ []) g := by rwa [List.append_nil]
  cases order with
  | alloca name type =>
    cases hmake
    exact h.add rfl rfl
  | load name type address =>
    cases hmake
    exact h.add rfl rfl
  | store value address =>
    cases hmake
    exact hnone
  | binary op left right =>
    rw [Order.make] at hmake
    split at hmake
    · cases hmake
    · cases hmake
      exact h.add rfl rfl
  | call callee args =>
    rw [Order.make] at hmake
    split at hmake
    · cases hmake
    · cases hmake
      exact hnone
    · cases hmake
      exact h.add rfl rfl
  | ret value =>
    cases hmake
    exact hnone
  | ready j =>
    cases hmake
    exact hnone

theorem Life.numbers (h : Life f ts g) : Numbers f ts g := by
  induction h with
  | start => exact ⟨rfl, rfl⟩
  | setExternal value _ ih => exact ih.of_temps rfl
  | newBlock label _ ih => exact ih.of_temps rfl
  | newTemp name type _ ih => exact ih.add rfl rfl
  | make order hmake _ ih => exact ih.make hmake
  | push order index hmake _ ih => exact (ih.make hmake).of_temps rfl
  | pass p hpass _ ih => exact ih.of_temps (Pass.temps_apply hpass)
  | optimize o hrun _ ih => exact ih.of_temps (temps_runRounds hrun)

theorem Numbers.pairwise (h : Numbers f ts g) :
    ts.Pairwise fun t t' => t.id ≠ t'.id := by
  have hnodup : (ts.map Temp.id).Nodup := h.ids ▸ List.nodup_range'
  exact List.pairwise_map.mp hnodup

end Code.Function

/-! ## Names in the target -/

namespace Target

theorem quote_mem_writeName_iff (x : String) :
    '"' ∈ (writeName x).toList ↔ (isNumeral x || !x.toList.all isNameChar) = true := by
  rw [writeName]
  split
  next hquoted => simp [hquoted, quote, quoteBytes]
  next hbare =>
    refine iff_of_false (fun hmem => ?_) hbare
    have hall : x.toList.all isNameChar = true := by simp_all
    exact absurd (List.all_eq_true.mp hall _ hmem) (by decide)

/-- Names that are written alike are the same, with quotes or without. -/
theorem writeName_injective {x y : String} (h : writeName x = writeName y) : x = y := by
  have hquoted : (isNumeral x || !x.toList.all isNameChar) =
      (isNumeral y || !y.toList.all isNameChar) := by
    rw [Bool.eq_iff_iff, ← quote_mem_writeName_iff, ← quote_mem_writeName_iff, h]
  rw [writeName, writeName, ← hquoted] at h
  split at h
  · simp only [quote, quoteBytes, String.ofList_inj, List.cons_append,
      List.cons.injEq, true_and, List.append_cancel_right_eq] at h
    have hbytes := congrArg unescape h
    rw [unescape_flatMap, unescape_flatMap, Option.some_inj] at hbytes
    have hrunes := congrArg Rune.decode hbytes
    rw [Rune.decode_utf8, Rune.decode_utf8] at hrunes
    exact String.toList_injective
      (List.map_injective_iff.mpr (fun _ _ hchar => Rune.char.inj hchar) hrunes)
  · exact h

theorem name?_of_emitInstr {s : Surroundings} {ret : Ty} {locals : Locals}
    {i : Code.Instr} {out : Instr} {dest : Option Value}
    (h : emitInstr s ret locals i = .ok (.instr out dest)) :
    out.name? = dest.map localName := by
  cases i with
  | alloca _ _ =>
    obtain ⟨_, -, h⟩ := bind_eq_ok.mp h
    cases h
    rfl
  | load _ _ =>
    obtain ⟨_, -, h⟩ := bind_eq_ok.mp h
    obtain ⟨_, -, h⟩ := bind_eq_ok.mp h
    cases h
    rfl
  | store _ _ =>
    obtain ⟨_, -, h⟩ := bind_eq_ok.mp h
    obtain ⟨_, -, h⟩ := bind_eq_ok.mp h
    cases eq_of_storeTo h
    rfl
  | binary op _ _ _ =>
    obtain ⟨_, -, h⟩ := bind_eq_ok.mp h
    obtain ⟨_, -, h⟩ := bind_eq_ok.mp h
    cases op <;> cases h
    rfl
  | call _ _ _ =>
    obtain ⟨_, _, _, -, -, -, heq⟩ := emitInstr_call h
    cases heq
    rfl
  | ret value =>
    obtain ⟨t, ht⟩ := terminator_of_emitInstr rfl h
    cases ht
  | foreign _ _ _ => cases h

theorem localNames_of_emitInstrs {s : Surroundings} {ret : Ty} {block : Nat}
    {locals : Locals} {index : Nat} {is : List Code.Instr} {r : Emitted}
    (h : emitInstrs s ret block locals index is = .ok r) :
    r.instrs.filterMap Instr.name? =
      (is.filterMap Code.Instr.result).map localName := by
  induction is generalizing locals index r with
  | nil =>
    cases h
    rfl
  | cons i rest ih =>
    obtain ⟨step, hstep, h⟩ := bind_eq_ok.mp h
    have hresult := result_of_emitInstr hstep
    cases step with
    | instr out dest =>
      obtain ⟨r', hr', h⟩ := bind_eq_ok.mp h
      cases h
      have hdest : dest = i.result := by
        rw [← hresult]
        cases dest <;> rfl
      have hname := name?_of_emitInstr hstep
      rw [hdest] at hname
      simp only [List.filterMap_cons, hname, ih hr']
      cases i.result <;> rfl
    | terminator t =>
      obtain ⟨r', hr', h⟩ := bind_eq_ok.mp h
      cases h
      show r'.instrs.filterMap Instr.name? = _
      rw [ih hr', List.filterMap_cons_none hresult.symm]

theorem localNames_of_emitBlocks {s : Surroundings} {name : String} {ret : Ty}
    {locals : Locals} {block : Nat} {bs : List Code.Block} {out : List Block}
    (h : emitBlocks s name ret locals block bs = .ok out) :
    (out.flatMap (·.instrs.filterMap Instr.name?)) =
      ((bs.flatMap (·.instrs)).filterMap Code.Instr.result).map localName := by
  induction bs generalizing locals block out with
  | nil =>
    cases h
    rfl
  | cons b bs ih =>
    obtain ⟨r, rest, hr, hrest, rfl⟩ := emitBlocks_cons_eq_ok.mp h
    rw [List.flatMap_cons, List.flatMap_cons, List.filterMap_append,
      List.map_append, ← localNames_of_emitInstrs hr, ih hrest]

theorem getElem?_of_defineAll {s : Surroundings} {fs : List Code.Function}
    {gs out : List Function} (h : defineAll s fs gs = .ok out) {place : Nat}
    {f : Code.Function} {g : Function} (hf : fs[place]? = some f)
    (hg : gs[place]? = some g) :
    ∃ g', define s f g = .ok g' ∧ out[place]? = some g' := by
  induction fs generalizing gs out place with
  | nil => simp at hf
  | cons first fs ih =>
    cases gs with
    | nil => simp at hg
    | cons header gs =>
      obtain ⟨g', hg', h⟩ := bind_eq_ok.mp h
      obtain ⟨rest, hrest, h⟩ := bind_eq_ok.mp h
      cases h
      cases place with
      | zero =>
        cases hf
        cases hg
        exact ⟨g', hg', rfl⟩
      | succ place => exact ih hrest hf hg

/-- What a function makes goes by its local name in the target,
whoever made the code. -/
theorem localNames_of_emit {m : Code.Module} {out : Module} (h : m.emit = .ok out)
    {place : Nat} {f : Code.Function} (hf : m.functions[place]? = some f)
    (hcode : f.isExternal = false) :
    ∃ g, out.functions[place]? = some g ∧
      g.localNames = (f.instrs.filterMap Code.Instr.result).map localName := by
  rw [Code.Module.emit] at h
  split at h
  · cases h
  next declared hdeclared =>
  obtain ⟨rfl, -, -⟩ := eq_of_declare hdeclared
  obtain ⟨functions, hfunctions, hdone⟩ := bind_eq_ok.mp h
  cases hdone
  have hheader : (m.functions.map header)[place]? = some (header f) := by
    rw [List.getElem?_map, hf]; rfl
  obtain ⟨g, hg, hout⟩ := getElem?_of_defineAll hfunctions hf hheader
  rw [define, hcode, if_neg Bool.false_ne_true] at hg
  obtain ⟨blocks, hblocks, hg⟩ := bind_eq_ok.mp hg
  cases hg
  exact ⟨_, hout, localNames_of_emitBlocks hblocks⟩

end Target

namespace Code

/-- Whatever becomes of a function, any two temporaries that it makes are
printed differently, and are named differently in the target, as names and as
text. A module that it ends up in gives its values just these names. -/
theorem temporaries_named_apart {f g : Function} {ts : List Temp}
    (h : f.Life ts g) :
    (ts.Pairwise fun t t' =>
      (Value.temp t).shown ≠ (Value.temp t').shown ∧
        Target.localName (.temp t) ≠ Target.localName (.temp t') ∧
        Target.writeName (Target.localName (.temp t)) ≠
          Target.writeName (Target.localName (.temp t'))) ∧
    ∀ (m : Module) (place : Nat) (out : Target.Module),
      m.functions[place]? = some g → g.isExternal = false → m.emit = .ok out →
      ∃ g', out.functions[place]? = some g' ∧
        g'.localNames = (g.instrs.filterMap Instr.result).map Target.localName := by
  refine ⟨h.numbers.pairwise.imp fun {t t'} hid => ?_,
      fun m place out hplace hcode hemit =>
    Target.localNames_of_emit hemit hplace hcode⟩
  have hname : Target.localName (.temp t) ≠ Target.localName (.temp t') := fun heq =>
    hid (numbered_injective heq).2
  exact ⟨fun heq => hname ((String.append_right_inj "%").mp heq), hname,
    fun heq => hname (Target.writeName_injective heq)⟩

/-- The names look like numbered ones of each other, and the number of the sum
that is folded away is not given out again. -/
theorem temporaries_named_apart_lookalikes :
    let f := Module.declared { name := "m" } "f" .i32 [] false
    let temp (id : Nat) (name : String) (type : Ty) : Temp :=
      { owner := 0, id, name, type }
    let ts :=
      [temp 0 "x.1" .i32, temp 1 "x" (.ptr .i32), temp 2 "t3" .i8, temp 3 "" .i32,
        temp 4 "" .i8]
    (ts.map fun t => (Value.temp t).shown) = ["%x.1.0", "%x.1", "%t3.2", "%t3", "%t4"] ∧
      ∃ g, f.Life ts g ∧ g.size = 1 ∧ ts.Pairwise fun t t' =>
        (Value.temp t).shown ≠ (Value.temp t').shown ∧
          Target.localName (.temp t) ≠ Target.localName (.temp t') ∧
          Target.writeName (Target.localName (.temp t)) ≠
              Target.writeName (Target.localName (.temp t')) := by
  intro f temp ts
  have hbuilt : f.Life [temp 0 "x.1" .i32, temp 1 "x" (.ptr .i32)] _ :=
    ((Function.Life.start.newBlock "entry").newTemp "x.1" .i32).push
      (.alloca "x" .i32) 0 rfl
  have hsum : f.Life [temp 0 "x.1" .i32, temp 1 "x" (.ptr .i32), temp 2 "t3" .i8,
      temp 3 "" .i32] _ :=
    (hbuilt.newTemp "t3" .i8).push (.binary (.arith .add) (.int 2) (.int 3)) 0 rfl
  have hfolded := hsum.pass .constantFolding rfl
  have h : f.Life ts _ := hfolded.newTemp "" .i8
  exact ⟨by decide +kernel, _, h, rfl, (temporaries_named_apart h).1⟩

end Code

end Straightline
