import Xv6MallocLab.UserProcess

/-!
# The K&R allocator

`malloc` keeps one circular list of free blocks in address order, closed by a static
header.  The loops follow links without a bound of their own; the one here is taken from
the break, below which every header lies.
-/

namespace Xv6MallocLab.Umalloc

open ByteMemory

def ptr (m : Memory) (p : ℕ) : ℕ := load 8 m p

def units (m : Memory) (p : ℕ) : ℕ := load 4 m (p + 8)

def advance (p n : ℕ) : ℕ := (p + 16 * n) % 2 ^ 64

/-- The loop of `free`: the block behind which `bp` belongs. -/
def freeSearch (bp : ℕ) : ℕ → ℕ → Prog ℕ
  | 0, _ => throw .diverge
  | bound + 1, p => do
      let next := ptr (← Prog.mem) p
      if bp > p ∧ bp < next then
        return p
      else if p ≥ next ∧ (bp > p ∨ bp < next) then
        return p
      else
        freeSearch bp bound next

/-- `free`: into the ring by address, joined with its neighbours. -/
def free (ap : ℕ) : Prog Unit := do
  let bp := (ap + 2 ^ 64 - 16) % 2 ^ 64
  let p ← freeSearch bp ((← get).brk + 1) (← get).freep
  let next := ptr (← Prog.mem) p
  if advance bp (units (← Prog.mem) bp) = next then
    Prog.poke32 (bp + 8) (units (← Prog.mem) bp + units (← Prog.mem) next)
    Prog.poke64 bp (ptr (← Prog.mem) (ptr (← Prog.mem) p))
  else
    Prog.poke64 bp (ptr (← Prog.mem) p)
  if advance p (units (← Prog.mem) p) = bp then
    Prog.poke32 (p + 8) (units (← Prog.mem) p + units (← Prog.mem) bp)
    Prog.poke64 p (ptr (← Prog.mem) bp)
  else
    Prog.poke64 p bp
  modify fun s => { s with freep := p }

def coreUnits (nu : ℕ) : ℕ := if nu < 4096 then 4096 else nu

/-- `morecore`: at least 4096 units from `sbrk`, given to `free`. -/
def morecore (nu : ℕ) : Prog ℕ := do
  let p ← sbrk (toInt (coreUnits nu * 16))
  if p = minusOne then
    return 0
  else
    Prog.poke32 (p + 8) (coreUnits nu)
    free ((p + 16) % 2 ^ 64)
    return (← get).freep

/-- The body of the loop of `malloc` once `p` is large enough. -/
def carve (nunits prevp p : ℕ) : Prog ℕ := do
  let size := units (← Prog.mem) p
  if size = nunits then
    Prog.poke64 prevp (ptr (← Prog.mem) p)
    modify fun s => { s with freep := prevp }
    return (p + 16) % 2 ^ 64
  else
    Prog.poke32 (p + 8) (size - nunits)
    let q := advance p (units (← Prog.mem) p)
    Prog.poke32 (q + 8) nunits
    modify fun s => { s with freep := prevp }
    return (q + 16) % 2 ^ 64

/-- The loop of `malloc`; at `freep` it asks for more memory. -/
def mallocLoop (nunits : ℕ) : ℕ → ℕ → ℕ → Prog ℕ
  | 0, _, _ => throw .diverge
  | bound + 1, prevp, p => do
      if units (← Prog.mem) p ≥ nunits then
        carve nunits prevp p
      else if p = (← get).freep then
        let p ← morecore nunits
        if p = 0 then
          return 0
        else
          mallocLoop nunits bound p (ptr (← Prog.mem) p)
      else
        mallocLoop nunits bound p (ptr (← Prog.mem) p)

def nunits (nbytes : UInt32) : ℕ := (nbytes.toNat + 15) / 16 + 1

/-- `malloc`; the first call links the static block to itself. -/
def malloc (static : ℕ) (nbytes : UInt32) : Prog ℕ := do
  if (← get).freep = 0 then
    Prog.poke64 static static
    modify fun s => { s with freep := static }
    Prog.poke32 (static + 8) 0
  let prevp := (← get).freep
  mallocLoop (nunits nbytes) (2 * (← get).brk + 8) prevp (ptr (← Prog.mem) prevp)

end Xv6MallocLab.Umalloc
