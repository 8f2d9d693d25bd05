import FerricK.Clock.Held
import FerricK.Clock.Target
import FerricK.Clock.Window
import FerricK.Console.Chunks
import FerricK.Console.EditLine
import FerricK.Console.Geometry
import FerricK.Console.Repaint
import FerricK.Crash
import FerricK.Font.Bitmap
import FerricK.Font.Drawable
import FerricK.Font.Table
import FerricK.Framebuffer.Bars
import FerricK.Framebuffer.Capture
import FerricK.Framebuffer.Colors
import FerricK.Gdt
import FerricK.Grid.Page
import FerricK.Grid.Row
import FerricK.Heap.Answers
import FerricK.Heap.FirstFit
import FerricK.Heap.Install
import FerricK.Heap.Shared
import FerricK.Irq.Capture
import FerricK.Irq.Exceptions
import FerricK.Irq.Guard
import FerricK.Irq.ReportA64
import FerricK.Irq.Transparency
import FerricK.Keyboard.Devices
import FerricK.Keyboard.Extended
import FerricK.Keyboard.Glyphs
import FerricK.Keyboard.Pause
import FerricK.Keyboard.Release
import FerricK.Keyboard.Repeat
import FerricK.Keyboard.Taps
import FerricK.Mem
import FerricK.Mem.Compare
import FerricK.Mmu.Window
import FerricK.Monitor.Memory
import FerricK.Monitor.ReadBack
import FerricK.Monitor.Refresh
import FerricK.Panic
import FerricK.Shell.Command
import FerricK.Shell.Session
import FerricK.Shell.Typing
import FerricK.Slint.Blit
import FerricK.Slint.Log
import FerricK.Sync.OnceLock
import FerricK.Sync.Spinlock
import FerricK.Time.Board
import FerricK.Time.Drivers
import FerricK.Time.Idle
import FerricK.Time.Period
import FerricK.Time.Ticking
import FerricK.Time.Uptime
import FerricK.Uart.Bringup
import FerricK.Xtask.Elf
import FerricK.Xtask.Extract
import FerricK.Xtask.Image
import FerricK.Xtask.Smoke
import FerricK.Xtask.Tokens
