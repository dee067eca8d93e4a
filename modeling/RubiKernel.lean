import RubiKernel.Lib.Lts
import RubiKernel.Lib.Edit
import RubiKernel.Lib.Linked
import RubiKernel.Lib.Cyclic
import RubiKernel.Lib.Rotation
import RubiKernel.Lib.Tiling
import RubiKernel.Lib.Assoc
import RubiKernel.Lib.Bitmap
import RubiKernel.Lib.Bits
import RubiKernel.Lib.Keeps
import RubiKernel.Lib.Memory
import RubiKernel.Lib.Countdown
import RubiKernel.Lib.Stack
import RubiKernel.Lib.Buffer
import RubiKernel.Lib.Grid
import RubiKernel.Lib.Fields
import RubiKernel.Lib.Layout
import RubiKernel.Lib.Controller
import RubiKernel.Types
import RubiKernel.Gdt
import RubiKernel.Pci
import RubiKernel.Slist
import RubiKernel.Slist.Runs
import RubiKernel.Clist
import RubiKernel.Clist.Runs
import RubiKernel.Queue
import RubiKernel.Dev.Handlers
import RubiKernel.Keyboard.Defs
import RubiKernel.Keyboard.Resend
import RubiKernel.Keyboard.Echo
import RubiKernel.Keyboard.Flush
import RubiKernel.Heap.Defs
import RubiKernel.Heap.Blocks
import RubiKernel.Heap.Refinement
import RubiKernel.Heap.Invariant
import RubiKernel.Heap.Allocator
import RubiKernel.Heap.Containment
import RubiKernel.Heap.Pointers
import RubiKernel.Heap.Release
import RubiKernel.Heap.FirstFit
import RubiKernel.Heap.Aligned
import RubiKernel.Heap.Held
import RubiKernel.Mmu.Defs
import RubiKernel.Mmu.Frames
import RubiKernel.Mmu.Reserved
import RubiKernel.Mmu.Free
import RubiKernel.Mmu.Extended
import RubiKernel.Mmu.Window
import RubiKernel.Mmu.Spaces
import RubiKernel.Mmu.Upper
import RubiKernel.Boot.Defs
import RubiKernel.Boot.Paging
import RubiKernel.Boot.Higher
import RubiKernel.Boot.Window
import RubiKernel.Elf.Defs
import RubiKernel.Elf.Bounds
import RubiKernel.Elf.Content
import RubiKernel.Elf.Release
import RubiKernel.Elf.Reserved
import RubiKernel.Elf.Program
import RubiKernel.Scheduler.Task
import RubiKernel.Scheduler.Schedule
import RubiKernel.Scheduler.System
import RubiKernel.Scheduler.Find
import RubiKernel.Scheduler.Safety
import RubiKernel.Scheduler.RoundRobin
import RubiKernel.Scheduler.Quota
import RubiKernel.Scheduler.Syscall
import RubiKernel.Scheduler.Refusal
import RubiKernel.Vfs.Leftover
import RubiKernel.Scheduler.Ids
import RubiKernel.Scheduler.Mailbox
import RubiKernel.Scheduler.Context
import RubiKernel.Tty.Defs
import RubiKernel.Tty.Line
import RubiKernel.Tty.Console
import RubiKernel.Tty.Size
import RubiKernel.Tty.Input
import RubiKernel.Dev.Interrupt
import RubiKernel.Dt.Idt
import RubiKernel.Dt.Delivery
import RubiKernel.Vfs.Defs
import RubiKernel.Vfs.Nodes
import RubiKernel.Vfs.Checks
import RubiKernel.Vfs.Image
import RubiKernel.Vfs.Resolve
import RubiKernel.Vfs.Listing
import RubiKernel.Vfs.Read
import RubiKernel.Vfs.FdTable
import RubiKernel.Vfs.Builder
import RubiKernel.Vfs.Records
import RubiKernel.Vfs.RoundTrip
import RubiKernel.Vfs.Packed
import RubiKernel.Vfs.Devices
import RubiKernel.Vfs.Shared
import RubiKernel.Elf.Start
import RubiKernel.Scheduler.Lifetime
import RubiKernel.Scheduler.Tables
import RubiKernel.Kthread.Dq
import RubiKernel.Text.Itoa
import RubiKernel.Text.Format
import RubiKernel.Text.Scan
import RubiKernel.Vga.Defs
import RubiKernel.Vga.Stores
import RubiKernel.Vga.Print
import RubiKernel.Vga.Printf
import RubiKernel.Vga.Screen
